import CageKeeper.ProxySteps
import CageKeeper.ProxyChild
import CageKeeper.WireRoundTrip

/-! What one side of the proxy writes as the other side reads it. A command is read back as the
request it stands for, and a message of the child as that message, as long as names and values
stay within the limits of the reader. -/

namespace CageKeeper
open ByteStream

/-! ### Strings and values -/

section Payload

theorem readString_writeString {maxSize : Int} {name : CString}
    (hname : StringFits maxSize name.length) (rest : Bytes) (ending : Ending) :
    readString maxSize (⟨writeString name ++ rest, ending⟩ : Pipe) = .ok name ⟨rest, ending⟩ :=
  readString_eq_ok.mpr ⟨name.bytes, hname, rfl, rfl, name.ofBytes_bytes.symm⟩

theorem withFrames_writeValue {maxStringSize maxArraySize : Int} {value : Value}
    (hvalue : value.Fits maxStringSize maxArraySize) (rest : Bytes) (ending : Ending) :
    ∃ count, Reader.withFrames
      (fun frames => readValueCounted maxStringSize maxArraySize frames 0)
      (⟨writeValue value ++ rest, ending⟩ : Pipe) = .ok (value, count) ⟨rest, ending⟩ := by
  obtain ⟨count, hcount⟩ := Option.isSome_iff_exists.mp hvalue
  exact ⟨count, withFrames_readValueCounted_eq_ok.mpr
    ⟨value.raw, by rw [value.encode_raw], rfl, hcount, value.value_raw.symm⟩⟩

theorem readValue_writeValue {value : Value} (hvalue : value.Fits maxStringSize maxArraySize)
    (rest : Bytes) (ending : Ending) :
    readValue (⟨writeValue value ++ rest, ending⟩ : Pipe) = .ok value ⟨rest, ending⟩ := by
  obtain ⟨count, hread⟩ := withFrames_writeValue hvalue rest ending
  rw [readValue, Reader.bind_apply, hread]
  rfl

theorem readValueNolimit_writeValue {value : Value} (hvalue : value.Fits 0 0) (rest : Bytes)
    (ending : Ending) :
    readValueNolimit (⟨writeValue value ++ rest, ending⟩ : Pipe) =
      .ok value ⟨rest, ending⟩ := by
  obtain ⟨count, hread⟩ := withFrames_writeValue hvalue rest ending
  rw [readValueNolimit, Reader.bind_apply, hread]
  rfl

theorem readByte_cons (b : UInt8) (rest : Bytes) (ending : Ending) :
    readByte (⟨b :: rest, ending⟩ : Pipe) = .ok b ⟨rest, ending⟩ :=
  readByte_eq_ok.mpr ⟨rfl, rfl⟩

end Payload

/-! ### Commands -/

theorem readRequest_cons (command : Command) (rest : Bytes) (ending : Ending) :
    readRequest (⟨command.code :: rest, ending⟩ : Pipe) =
      readOperands (some command) ⟨rest, ending⟩ := by
  rw [readRequest, Reader.bind_apply, readByte_cons, Outcome.bind_ok, Command.ofCode_code]

/-- Nothing has arrived. -/
theorem readRequest_nil : readRequest (⟨[], .more⟩ : Pipe) = .short := rfl

namespace Op

variable {F W : Type}

def command (natives : Natives F W) : Op F → Bytes
  | .defineConstant name value =>
      writeByte Command.defineConstant.code ++ writeString name ++ writeValue value
  | .defineFunction name f =>
      writeByte Command.defineFunction.code ++ writeString name ++
        writeByte (UInt8.ofNat (natives.numParams f))
  | .compileScript script => writeByte Command.compileScript.code ++ writeString script
  | .isFunction name => writeByte Command.isFunction.code ++ writeString name
  | .callFunction name args =>
      writeByte Command.callFunction.code ++ writeString name ++ writeValue args

def request (natives : Natives F W) : Op F → Request
  | .defineConstant name value => .defineConstant (some name) (some value)
  | .defineFunction name f => .defineFunction (some name) (UInt8.ofNat (natives.numParams f))
  | .compileScript script => .compileScript (some script)
  | .isFunction name => .isFunction (some name)
  | .callFunction name args => .callFunction (some name) (some args)

/-- The names and values of the operation are below `INT_MAX`. -/
def Readable : Op F → Prop
  | .defineConstant name value => StringFits 0 name.length ∧ value.Fits 0 0
  | .defineFunction name _ => StringFits 0 name.length
  | .compileScript script => StringFits 0 script.length
  | .isFunction name => StringFits 0 name.length
  | .callFunction name args => StringFits 0 name.length ∧ args.Fits 0 0

/-- Whatever an operation does, it writes its command first. -/
theorem invoke_written (natives : Natives F W) (p : Parent F W) (operation : Op F) :
    (Parent.invoke natives p operation).2 = operation.command natives := by
  cases operation with
  | defineConstant name value => rfl
  | defineFunction name f =>
      simp only [Parent.invoke, Parent.defineFunctionProxy]
      split <;> rfl
  | compileScript script =>
      simp only [Parent.invoke, Parent.compileScriptProxy]
      split <;> rfl
  | isFunction name => rfl
  | callFunction name args =>
      simp only [Parent.invoke, Parent.callFunctionProxy]
      split <;> rfl

/-- **Commands.** The child reads a command as what it stands for, and nothing of what follows. -/
theorem readRequest_command (natives : Natives F W) {operation : Op F}
    (hreadable : operation.Readable) (rest : Bytes) (ending : Ending) :
    readRequest (⟨operation.command natives ++ rest, ending⟩ : Pipe) =
      .ok (operation.request natives) ⟨rest, ending⟩ := by
  cases operation with
  | defineConstant name value =>
      simp only [command, writeByte, List.cons_append, List.nil_append, List.append_assoc,
        readRequest_cons, readOperands, Reader.bind_apply, Reader.attempt_apply,
        readString_writeString hreadable.1, readValueNolimit_writeValue hreadable.2,
        Outcome.attempt_ok, Outcome.bind_ok, Reader.pure_apply, request]
  | defineFunction name f =>
      simp only [command, writeByte, List.cons_append, List.nil_append, List.append_assoc,
        readRequest_cons, readOperands, Reader.bind_apply, Reader.attempt_apply,
        readString_writeString hreadable, readByte_cons,
        Outcome.attempt_ok, Outcome.bind_ok, Reader.pure_apply, request, Option.getD_some]
  | compileScript script =>
      simp only [command, writeByte, List.cons_append, List.nil_append, readRequest_cons,
        readOperands, Reader.bind_apply, Reader.attempt_apply, readString_writeString hreadable,
        Outcome.attempt_ok, Outcome.bind_ok, Reader.pure_apply, request]
  | isFunction name =>
      simp only [command, writeByte, List.cons_append, List.nil_append, readRequest_cons,
        readOperands, Reader.bind_apply, Reader.attempt_apply, readString_writeString hreadable,
        Outcome.attempt_ok, Outcome.bind_ok, Reader.pure_apply, request]
  | callFunction name args =>
      simp only [command, writeByte, List.cons_append, List.nil_append, List.append_assoc,
        readRequest_cons, readOperands, Reader.bind_apply, Reader.attempt_apply,
        readString_writeString hreadable.1, readValueNolimit_writeValue hreadable.2,
        Outcome.attempt_ok, Outcome.bind_ok, Reader.pure_apply, request]

end Op

/-! ### Messages -/

section Messages

theorem readMessage_cons (b : UInt8) (rest : Bytes) (ending : Ending) :
    readMessage (⟨b :: rest, ending⟩ : Pipe) = readContent (Resp.ofCode b) ⟨rest, ending⟩ := by
  simp [readMessage, readByte_cons]

/-- Nothing has arrived. -/
theorem readMessage_nil : readMessage (⟨[], .more⟩ : Pipe) = .short := rfl

theorem readMessage_writeLog {line : CString} (hline : StringFits maxStringSize line.length)
    (rest : Bytes) (ending : Ending) :
    readMessage (⟨Resp.log.code :: (writeString line ++ rest), ending⟩ : Pipe) =
      .ok (.log (some line)) ⟨rest, ending⟩ := by
  simp [readMessage_cons, readContent, readString_writeString hline]

theorem readMessage_writeCallback {name : CString} {args : Value}
    (hname : StringFits maxStringSize name.length) (hargs : args.Fits maxStringSize maxArraySize)
    (rest : Bytes) (ending : Ending) :
    readMessage
        (⟨Resp.callback.code :: (writeString name ++ (writeValue args ++ rest)), ending⟩ : Pipe) =
      .ok (.callback name args) ⟨rest, ending⟩ := by
  simp [readMessage_cons, readContent, readString_writeString hname, readValue_writeValue hargs]

theorem readMessage_returnTag (rest : Bytes) (ending : Ending) :
    readMessage (⟨Resp.return.code :: rest, ending⟩ : Pipe) =
      .ok .return ⟨rest, ending⟩ := by
  simp [readMessage_cons, readContent]

theorem readMessage_errorTag (rest : Bytes) (ending : Ending) :
    readMessage (⟨Resp.error.code :: rest, ending⟩ : Pipe) =
      .ok .error ⟨rest, ending⟩ := by
  simp [readMessage_cons, readContent]

@[simp] theorem unmark_append (front back : List Mark) :
    unmark (front ++ back) = unmark front ++ unmark back := List.map_append

@[simp] theorem unmark_mark (role : Role) (bytes : Bytes) : unmark (mark role bytes) = bytes := by
  simp [unmark, mark, Function.comp_def]

@[simp] theorem unmark_length (marks : List Mark) : (unmark marks).length = marks.length :=
  List.length_map _

/-- A log line is short enough for the reader of the parent. -/
theorem IsLogLine.fits {line : CString} (hline : IsLogLine line) :
    StringFits maxStringSize line.length := by
  have hlength := hline.length_le
  constructor
  · simp only [intMax]
    omega
  · intro _
    simp only [maxStringSize]
    omega

end Messages

end CageKeeper
