import Nmos6502.Label.Table

namespace Nmos6502

/-- A scope as the addresses of the names that it defines. -/
abbrev Meaning := String → Option Word

namespace Meaning

def empty : Meaning := fun _ => none

/-- The scope with one more name, unless it defines that name already. -/
def define (scope : Meaning) (name : String) (address : Word) : Meaning :=
  fun other => (scope other).or (if other = name then some address else none)

end Meaning

/-- What is done to a label table. -/
inductive LabelEdit where
  | define (name : String) (address : Word)
  | pushScope
  | popScope
  /-- Drops all scopes and labels. -/
  | clear
  deriving DecidableEq, Repr

/-- The edits discard the scopes that they open and no others. -/
inductive LabelEdit.Balanced : List LabelEdit → Prop where
  | nil : Balanced []
  | define (name : String) (address : Word) {rest : List LabelEdit} (hrest : Balanced rest) :
      Balanced (.define name address :: rest)
  | scope {inside rest : List LabelEdit} (hinside : Balanced inside) (hrest : Balanced rest) :
      Balanced (.pushScope :: inside ++ .popScope :: rest)

/-- The open scopes, from the inside out. -/
abbrev Nesting := List Meaning

namespace Nesting

def edit : Nesting → LabelEdit → Nesting
  | scope :: outside, .define name address => scope.define name address :: outside
  | nesting, .pushScope => .empty :: nesting
  | _ :: scope :: outside, .popScope => scope :: outside
  | _, .clear => [.empty]
  | nesting, .define _ _ | nesting, .popScope => nesting

/-- The scopes that edits leave open, where one was open to begin with. -/
def after (edits : List LabelEdit) : Nesting :=
  edits.foldl edit [.empty]

/-- The innermost scope that defines the name gives it the address. -/
def Means (nesting : Nesting) (name : String) (address : Word) : Prop :=
  ∃ inside scope outside, nesting = inside ++ scope :: outside ∧ scope name = some address ∧
    ∀ inner ∈ inside, inner name = none

/-- The scope has the name for the address, and no scope further in makes it mean another. -/
def Offers (nesting : Nesting) (address : Word) (scope : Meaning) (name : String) : Prop :=
  scope name = some address ∧ nesting.Means name address

/-- The name is the first in the alphabet that the innermost possible scope offers. -/
def Names (nesting : Nesting) (address : Word) (name : String) : Prop :=
  ∃ inside scope outside, nesting = inside ++ scope :: outside ∧
    nesting.Offers address scope name ∧
    (∀ inner ∈ inside, ∀ other, ¬ nesting.Offers address inner other) ∧
    ∀ other, nesting.Offers address scope other → name ≤ other

end Nesting

namespace LabelTable

variable {t : LabelTable}

/-- The table after an edit. A definition that is refused changes nothing. -/
def edit (t : LabelTable) : LabelEdit → LabelTable
  | .define name address =>
    match t.define name address with
    | .ok defined => defined
    | .error _ => t
  | .pushScope => t.pushScope
  | .popScope => t.popScope
  | .clear => .empty

def edited (t : LabelTable) (edits : List LabelEdit) : LabelTable :=
  edits.foldl edit t

theorem edited_append (t : LabelTable) (edits later : List LabelEdit) :
    t.edited (edits ++ later) = (t.edited edits).edited later :=
  List.foldl_append

def nesting (t : LabelTable) : Nesting :=
  t.scopes.map fun scope name => scope.lookup name

theorem nesting_eq (t : LabelTable) : t.nesting =
    (fun name => t.inner.lookup name) :: t.outer.map fun scope name => scope.lookup name :=
  rfl

theorem define_eq_error_iff {name : String} {address : Word} {error : LabelError} :
    t.define name address = .error error ↔
      ∃ existing, t.inner.lookup name = some existing ∧ error = .duplicate name existing := by
  rw [define]
  cases t.inner.lookup name <;> simp [eq_comm]

theorem edit_define (t : LabelTable) (name : String) (address : Word) :
    (t.edit (.define name address)).outer = t.outer ∧
      ∀ other, (t.edit (.define name address)).inner.lookup other =
        Meaning.define (fun name => t.inner.lookup name) name address other := by
  simp only [edit, define, Meaning.define]
  cases hinner : t.inner.lookup name with
  | none =>
    refine ⟨rfl, fun other => ?_⟩
    simp only [Sorted.lookup_insert]
    rcases Decidable.em (other = name) with rfl | hne
    · rw [if_pos rfl, if_pos rfl, hinner, Option.none_or]
    · rw [if_neg hne, if_neg hne, Option.or_none]
  | some existing =>
    refine ⟨rfl, fun other => ?_⟩
    rcases Decidable.em (other = name) with rfl | hne
    · simp [hinner]
    · rw [if_neg hne, Option.or_none]

theorem nesting_edit (t : LabelTable) (e : LabelEdit) : (t.edit e).nesting = t.nesting.edit e := by
  cases e with
  | define name address =>
    obtain ⟨houter, hinner⟩ := t.edit_define name address
    rw [nesting_eq, nesting_eq, houter, Nesting.edit, ← funext hinner]
  | pushScope => rfl
  | clear => rfl
  | popScope =>
    obtain ⟨inner, outer⟩ := t
    cases outer <;> rfl

theorem nesting_edited (edits : List LabelEdit) (t : LabelTable) :
    (t.edited edits).nesting = edits.foldl Nesting.edit t.nesting := by
  induction edits generalizing t with
  | nil => rfl
  | cons e edits ih =>
    rw [List.foldl_cons, ← nesting_edit]
    exact ih (t.edit e)

theorem lookup_eq_findSome? (t : LabelTable) (name : String) :
    t.lookup name = t.nesting.findSome? fun scope => scope name := by
  rw [lookup, nesting, List.findSome?_map]
  rfl

theorem lookup_eq_some_iff {name : String} {address : Word} :
    t.lookup name = some address ↔ t.nesting.Means name address := by
  rw [lookup_eq_findSome?, List.findSome?_eq_some_iff]
  rfl

/-- Every scope is in alphabetical order. -/
def Ordered (t : LabelTable) : Prop :=
  ∀ scope ∈ t.scopes, Sorted.Ascending scope

theorem ordered_empty : empty.Ordered := by
  simp [Ordered, scopes, empty, Sorted.Ascending]

theorem Ordered.edit (h : t.Ordered) (e : LabelEdit) : (t.edit e).Ordered := by
  obtain ⟨inner, outer⟩ := t
  simp only [Ordered, scopes, List.forall_mem_cons] at h
  cases e with
  | define name address =>
    rw [LabelTable.edit, define]
    cases inner.lookup name with
    | none => simpa [Ordered, scopes] using ⟨Sorted.ascending_insert h.1, h.2⟩
    | some existing => simpa [Ordered, scopes] using h
  | pushScope => simpa [Ordered, LabelTable.edit, pushScope, scopes, Sorted.Ascending] using h
  | popScope =>
    cases outer with
    | nil => simpa [Ordered, LabelTable.edit, popScope, scopes] using h
    | cons scope outer => simpa [Ordered, LabelTable.edit, popScope, scopes] using h.2
  | clear => exact ordered_empty

theorem Ordered.edited (h : t.Ordered) (edits : List LabelEdit) : (t.edited edits).Ordered := by
  induction edits generalizing t with
  | nil => exact h
  | cons e edits ih => exact ih (h.edit e)

theorem ascending_overlay {others : Scope} (h : Sorted.Ascending others) (scope : Scope) :
    Sorted.Ascending (visible.overlay scope others) := by
  unfold visible.overlay
  induction scope generalizing others with
  | nil => exact h
  | cons entry scope ih => exact ih (Sorted.ascending_insert h)

theorem lookup_overlay {scope : Scope} (h : Sorted.Ascending scope) (others : Scope)
    (name : String) :
    (visible.overlay scope others).lookup name =
      (scope.lookup name).or (others.lookup name) := by
  induction scope generalizing others with
  | nil => rfl
  | cons entry scope ih =>
    obtain ⟨first, address⟩ := entry
    obtain ⟨hfirst, hscope⟩ := List.pairwise_cons.mp h
    have hrest := ih hscope (Sorted.insert first address others)
    rw [Sorted.lookup_insert] at hrest
    refine hrest.trans ?_
    rcases Decidable.em (name = first) with rfl | hne
    · have hnone : scope.lookup name = none := by
        rw [List.lookup_eq_none_iff]
        intro entry hentry
        have hlt : name < entry.1 := hfirst entry hentry
        rw [bne_iff_ne]
        rintro rfl
        exact String.lt_irrefl _ hlt
      simp [hnone]
    · rw [if_neg hne, List.lookup_cons, beq_false_of_ne hne]

theorem ascending_visible (t : LabelTable) : Sorted.Ascending t.visible := by
  unfold visible
  induction t.scopes with
  | nil => exact .nil
  | cons scope scopes ih => exact ascending_overlay ih scope

theorem lookup_visible (h : t.Ordered) (name : String) :
    t.visible.lookup name = t.lookup name := by
  unfold Ordered at h
  unfold visible lookup
  generalize t.scopes = scopes at h
  induction scopes with
  | nil => rfl
  | cons scope scopes ih =>
    rw [List.forall_mem_cons] at h
    rw [List.foldr_cons, lookup_overlay h.1, ih h.2, List.findSome?_cons]
    cases scope.lookup name <;> rfl

theorem nameOf?_eq_none_iff {address : Word} :
    t.nameOf? address = none ↔ ∀ name, t.lookup name ≠ some address := by
  simp only [nameOf?, List.findSome?_eq_none_iff, Option.map_eq_none_iff, List.find?_eq_none]
  constructor
  · intro h name hname
    obtain ⟨before, scope, after, hscopes, hlookup, -⟩ := List.findSome?_eq_some_iff.mp hname
    obtain ⟨first, rest, hscope, -⟩ := List.lookup_eq_some_iff.mp hlookup
    exact h scope (by simp [hscopes]) (name, address) (by simp [hscope]) (by simp [hname])
  · intro h scope _ entry _ hentry
    simp only [Bool.and_eq_true, beq_iff_eq] at hentry
    exact h entry.1 hentry.2

/-- The first name in a scope that means the address. -/
def firstOffer (t : LabelTable) (address : Word) (scope : Scope) : Option String :=
  (scope.find? fun entry => entry.2 == address && t.lookup entry.1 == some address).map Prod.fst

theorem offers_iff {scope : Scope} (h : Sorted.Ascending scope) {address : Word}
    {name : String} : t.nesting.Offers address (fun name => scope.lookup name) name ↔
      (name, address) ∈ scope ∧ t.lookup name = some address := by
  rw [Nesting.Offers, Sorted.lookup_eq_some_iff h, lookup_eq_some_iff]

theorem firstOffer_eq_none_iff {scope : Scope} (h : Sorted.Ascending scope) {address : Word} :
    t.firstOffer address scope = none ↔
      ∀ name, ¬ t.nesting.Offers address (fun name => scope.lookup name) name := by
  simp only [firstOffer, offers_iff h, Option.map_eq_none_iff, List.find?_eq_none, Prod.forall]
  constructor
  · rintro hnone name ⟨hmem, hlookup⟩
    exact hnone name address hmem (by simp [hlookup])
  · intro hnone name place hmem hplace
    simp only [Bool.and_eq_true, beq_iff_eq] at hplace
    obtain ⟨rfl, hlookup⟩ := hplace
    exact hnone name ⟨hmem, hlookup⟩

theorem firstOffer_eq_some_iff {scope : Scope} (h : Sorted.Ascending scope) {address : Word}
    {name : String} : t.firstOffer address scope = some name ↔
      t.nesting.Offers address (fun name => scope.lookup name) name ∧
        ∀ other, t.nesting.Offers address (fun name => scope.lookup name) other →
          name ≤ other := by
  simp only [firstOffer, offers_iff h, Option.map_eq_some_iff, Sorted.find?_eq_some_iff h]
  constructor
  · rintro ⟨⟨first, place⟩, ⟨⟨hmem, hplace⟩, hleast⟩, rfl⟩
    simp only [Bool.and_eq_true, beq_iff_eq] at hplace
    obtain ⟨rfl, hlookup⟩ := hplace
    refine ⟨⟨hmem, hlookup⟩, fun other hother => String.not_lt.mp ?_⟩
    exact hleast (other, place) hother.1 (by simp [hother.2])
  · rintro ⟨⟨hmem, hlookup⟩, hleast⟩
    refine ⟨(name, address), ⟨⟨hmem, by simp [hlookup]⟩, ?_⟩, rfl⟩
    rintro ⟨other, place⟩ hother hplace
    simp only [Bool.and_eq_true, beq_iff_eq] at hplace
    obtain ⟨rfl, hplace⟩ := hplace
    exact String.not_lt.mpr (hleast other ⟨hother, hplace⟩)

theorem nameOf?_eq_some_iff (h : t.Ordered) {address : Word} {name : String} :
    t.nameOf? address = some name ↔ t.nesting.Names address name := by
  have hfirst : t.nameOf? address = t.scopes.findSome? (t.firstOffer address) := rfl
  rw [hfirst, List.findSome?_eq_some_iff]
  constructor
  · rintro ⟨inside, scope, outside, hscopes, hoffer, hinside⟩
    obtain ⟨hoffers, hleast⟩ := (firstOffer_eq_some_iff (h scope (by simp [hscopes]))).mp hoffer
    have hnesting : t.nesting = inside.map (fun scope name => scope.lookup name) ++
        (fun name => scope.lookup name) :: outside.map fun scope name => scope.lookup name := by
      rw [nesting, hscopes, List.map_append, List.map_cons]
    refine ⟨_, _, _, hnesting, hoffers, ?_, hleast⟩
    intro inner hinner
    obtain ⟨scope, hscope, rfl⟩ := List.mem_map.mp hinner
    exact (firstOffer_eq_none_iff (h scope (by simp [hscopes, hscope]))).mp (hinside scope hscope)
  · rintro ⟨inside, scope, outside, hnesting, hoffers, hinside, hleast⟩
    obtain ⟨inside, rest, hscopes, rfl, hrest⟩ := List.map_eq_append_iff.mp hnesting
    obtain ⟨scope, outside, rfl, rfl, -⟩ := List.map_eq_cons_iff.mp hrest
    refine ⟨inside, scope, outside, hscopes,
      (firstOffer_eq_some_iff (h scope (by simp [hscopes]))).mpr ⟨hoffers, hleast⟩, ?_⟩
    intro inner hinner
    exact (firstOffer_eq_none_iff (h inner (by simp [hscopes, hinner]))).mpr
      (hinside _ (List.mem_map_of_mem hinner))

theorem popScope_of_outer {inner : LabelTable} (h : inner.outer = t.scopes) :
    inner.popScope = t := by
  rw [popScope, h]
  rfl

theorem outer_edited {edits : List LabelEdit} (h : LabelEdit.Balanced edits) (t : LabelTable) :
    (t.edited edits).outer = t.outer := by
  induction h generalizing t with
  | nil => rfl
  | define name address _ ih => exact (ih _).trans (t.edit_define name address).1
  | @scope inside rest _ _ ihinside ihrest =>
    have hclosed : (t.pushScope.edited inside).popScope = t :=
      popScope_of_outer (ihinside t.pushScope)
    have hedits : t.edited (.pushScope :: inside ++ .popScope :: rest) = t.edited rest := by
      rw [edited_append]
      exact congrArg (LabelTable.edited · rest) hclosed
    rw [hedits, ihrest]

theorem popScope_edited_pushScope {edits : List LabelEdit} (h : LabelEdit.Balanced edits)
    (t : LabelTable) : (t.pushScope.edited edits).popScope = t :=
  popScope_of_outer (outer_edited h t.pushScope)

/-- What a table shows whose open scopes these are. -/
structure Shows (t : LabelTable) (nesting : Nesting) : Prop where
  depth : t.depth = nesting.length ∧ 1 ≤ t.depth
  lookup : ∀ name address, t.lookup name = some address ↔ nesting.Means name address
  /-- The labels that are visible are those that can be looked up, each listed once. -/
  visible : Sorted.Ascending t.visible ∧
    ∀ name address, (name, address) ∈ t.visible ↔ t.lookup name = some address
  refuses : ∀ name address error, t.define name address = .error error ↔
    ∃ scope outside existing, nesting = scope :: outside ∧ scope name = some existing ∧
      error = .duplicate name existing
  /-- What is refused leaves the table as it was. -/
  refused : ∀ name address error, t.define name address = .error error →
    t.edit (.define name address) = t
  nameless : ∀ address, t.nameOf? address = none ↔ ∀ name, t.lookup name ≠ some address
  named : ∀ address name, t.nameOf? address = some name ↔ nesting.Names address name
  restored : ∀ edits, LabelEdit.Balanced edits → (t.pushScope.edited edits).popScope = t

theorem Ordered.shows (h : t.Ordered) : t.Shows t.nesting where
  depth := ⟨(List.length_map _).symm, t.one_le_depth⟩
  lookup name address := lookup_eq_some_iff
  visible := by
    refine ⟨t.ascending_visible, fun name address => ?_⟩
    rw [← lookup_visible h, Sorted.lookup_eq_some_iff t.ascending_visible]
  refuses name address error := by
    rw [define_eq_error_iff, nesting_eq]
    constructor
    · rintro ⟨existing, hexisting, herror⟩
      exact ⟨_, _, existing, rfl, hexisting, herror⟩
    · rintro ⟨scope, outside, existing, hscope, hexisting, herror⟩
      obtain ⟨rfl, -⟩ := List.cons.inj hscope
      exact ⟨existing, hexisting, herror⟩
  refused name address error herror := by
    rw [LabelTable.edit, herror]
  nameless address := nameOf?_eq_none_iff
  named address name := nameOf?_eq_some_iff h
  restored edits hedits := popScope_edited_pushScope hedits t

/-- Whatever is done to a label table, it answers from the scopes that are open. -/
theorem shows_edited (edits : List LabelEdit) :
    (empty.edited edits).Shows (Nesting.after edits) := by
  have hnesting : (empty.edited edits).nesting = Nesting.after edits :=
    nesting_edited edits empty
  rw [← hnesting]
  exact (ordered_empty.edited edits).shows

/-- A name that is hidden names nothing. -/
example :
    let t := empty.edited [.define "here" 0x0200, .pushScope, .define "here" 0x0300]
    t.nameOf? 0x0200 = none ∧ t.nameOf? 0x0300 = some "here" := by
  decide +kernel

end LabelTable

end Nmos6502
