import Nmos6502.Proofs.Loader.Fixup

namespace Nmos6502.Loader

universe u v

variable {β : Type u} {γ : Type v}

def transfer (l : Loader β) (f : β → γ) : Loader γ where
  bus := f l.bus
  labels := l.labels
  cursor := l.cursor
  pending := l.pending
  errors := l.errors
  stores := l.stores

theorem transfer_label (l : Loader β) (f : β → γ) (name : String) :
    (l.transfer f).label name = (l.label name).transfer f := by
  unfold label
  simp only [transfer]
  split <;> rfl

theorem transfer_await (l : Loader β) (f : β → γ) (target : Reference) (encoding : Encoding) :
    (l.transfer f).await target encoding = (l.await target encoding).transfer f := by
  unfold await
  simp only [transfer]
  split <;> rfl

variable [Bus β] [Bus γ] {f : β → γ}

theorem transfer_patch (hf : Bus.Faithful f) (l : Loader β) (address : Word) (value : Byte) :
    (l.transfer f).patch address value = (l.patch address value).transfer f := by
  simp only [patch, transfer, Bus.store, hf.write, hf.signal]

theorem transfer_write (hf : Bus.Faithful f) (l : Loader β) (value : Byte) :
    (l.transfer f).write value = (l.write value).transfer f := by
  have hpatch := l.transfer_patch hf l.cursor value
  exact congrArg (fun patched : Loader γ => { patched with cursor := l.cursor + 1 }) hpatch

theorem transfer_writeAll (hf : Bus.Faithful f) (bytes : List Byte) (l : Loader β) :
    (l.transfer f).writeAll bytes = (l.writeAll bytes).transfer f := by
  induction bytes generalizing l with
  | nil => rfl
  | cons value bytes ih =>
    simp only [writeAll, List.foldl_cons, transfer_write hf]
    exact ih (l.write value)

theorem transfer_instruction (hf : Bus.Faithful f) (l : Loader β) (op : Opcode) :
    (l.transfer f).instruction op = (l.instruction op).transfer f := by
  unfold instruction
  split
  · exact l.transfer_write hf _
  · rfl

theorem transfer_loadImage (hf : Bus.Faithful f) (l : Loader β) (encoded : List Byte)
    (address : Option Word) : (l.transfer f).loadImage encoded address =
      ((l.loadImage encoded address).1.transfer f, (l.loadImage encoded address).2) := by
  unfold loadImage
  cases Image.decodeAt encoded address with
  | ok image =>
    have hwritten := transfer_writeAll hf image.bytes (l.moveTo image.address)
    exact congrArg (·, _) hwritten
  | error error => rfl

theorem transfer_emit (hf : Bus.Faithful f) (l : Loader β) (encoding : Encoding)
    (text : String) :
    (l.transfer f).emit encoding text = (l.emit encoding text).map (transfer · f) := by
  have hrefer : (l.transfer f).refer text encoding =
      (l.refer text encoding).map (transfer · f) := by
    unfold refer
    match Reference.read text with
    | .ok (.ok target) => exact congrArg Except.ok (l.transfer_await f target encoding)
    | .ok (.error error) => rfl
    | .error fault => rfl
  rw [emit_eq, emit_eq, hrefer]
  cases l.refer text encoding with
  | ok referred => exact congrArg Except.ok (transfer_writeAll hf _ referred)
  | error fault => rfl

theorem transfer_perform (hf : Bus.Faithful f) (writes : List (Word × Byte)) (l : Loader β) :
    (l.transfer f).perform writes = (l.perform writes).transfer f := by
  induction writes generalizing l with
  | nil => rfl
  | cons entry writes ih =>
    simp only [perform, List.foldl_cons, transfer_patch hf]
    exact ih (l.patch entry.1 entry.2)

theorem transfer_fixup (hf : Bus.Faithful f) (l : Loader β) :
    (l.transfer f).fixup = (l.fixup.1.transfer f, l.fixup.2) := by
  have herrors : (l.transfer f).errors ++ (l.transfer f).unresolved = l.errors ++ l.unresolved :=
    rfl
  have hpatched : (l.transfer f).cleared.perform (l.transfer f).patchWrites =
      (l.cleared.perform l.patchWrites).transfer f :=
    transfer_perform hf l.patchWrites l.cleared
  rw [fixup_eq, fixup_eq, herrors, hpatched]
  split <;> rfl

theorem transfer_finish (hf : Bus.Faithful f) (l : Loader β) :
    (l.transfer f).finish = l.finish.transfer f :=
  congrArg Prod.fst (l.transfer_fixup hf)

theorem transfer_call (hf : Bus.Faithful f) (l : Loader β) (c : Call) :
    (l.transfer f).call c = (l.call c).transfer f ∧ (l.transfer f).reply c = l.reply c := by
  cases c with
  | moveTo address | pushScope => exact ⟨rfl, rfl⟩
  | write value => exact ⟨l.transfer_write hf value, rfl⟩
  | writeWord value => exact ⟨transfer_writeAll hf _ l, rfl⟩
  | writeAll bytes => exact ⟨transfer_writeAll hf bytes l, rfl⟩
  | instruction op => exact ⟨l.transfer_instruction hf op, rfl⟩
  | label name => exact ⟨l.transfer_label f name, rfl⟩
  | refer encoding text =>
    simp only [call, reply, transfer_emit hf]
    cases l.emit encoding text <;> exact ⟨rfl, rfl⟩
  | loadImage encoded address =>
    simp only [call, reply, transfer_loadImage hf, and_self]
  | endScope =>
    simp only [call, reply, endScope, transfer_fixup hf, and_true]
    rfl
  | fixup =>
    simp only [call, reply, transfer_fixup hf, and_self]

theorem transfer_after (hf : Bus.Faithful f) (calls : List Call) (l : Loader β) :
    (l.transfer f).after calls = (l.after calls).transfer f := by
  induction calls generalizing l with
  | nil => rfl
  | cons c calls ih =>
    simp only [after, List.foldl_cons, (l.transfer_call hf c).1]
    exact ih (l.call c)

theorem transfer_transcript (hf : Bus.Faithful f) (calls : List Call) (l : Loader β) :
    (l.transfer f).transcript calls = l.transcript calls := by
  induction calls generalizing l with
  | nil => rfl
  | cons c calls ih =>
    obtain ⟨hcall, hreply⟩ := l.transfer_call hf c
    simp only [transcript, hcall, hreply, ih]
    rfl

end Nmos6502.Loader
