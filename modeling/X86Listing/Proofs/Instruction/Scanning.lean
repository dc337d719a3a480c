import X86Listing.Instruction.Decode
import X86Listing.Proofs.Operand.Primitives

/-!
# Decoding, byte by byte

`Parse.decode` decodes a line with scans only.  It is the decoder step by step: each step of
`Parse` has the name of the step of `Decoder` that it does on a cursor.

`Follows` says that a step on a cursor gives the answer of the step on a text, with an error or
without one, and leaves the cursor on a boundary of the line.  There is one fact for each step,
and `follows_decode` is the one about whole lines.
-/

namespace X86Listing

open Text (isSpace)

/-- A scan that can fail with an error. -/
abbrev Parse := ExceptT DecodeError Scan

namespace Parse

open Scan (Steps)

variable {α β γ δ : Type}

/-! ## Steps -/

/-- What a scan finds, or an error about the text ahead. -/
def expect (scan : Scan (Option α)) (error : List Char → DecodeError) : Parse α := do
  match ← scan with
  | some a => return a
  | none => throw (error (← Scan.rest))

/-- A register. -/
def register : Parse Reg :=
  expect Scan.register fun text => .expectedRegister (String.ofList text)

/-- A number, a local or a label. -/
def value (symbols : Symbols) : Parse UInt32 :=
  expect (Scan.value symbols) (Decoder.unreadable "a value")

/-- A character and the spaces that follow it. -/
def punctuation (c : Char) (expected : String) : Parse Unit := do
  if ← Scan.eat c then
    Scan.skipSpaces
  else
    throw (.malformed expected (String.ofList (← Scan.rest)))

/-- The end of the line. -/
def finish : Parse Unit := do
  if ← Scan.atEnd then
    return ()
  else
    throw (.trailing (String.ofList (← Scan.rest)))

/-- The operation of a mnemonic. -/
def select (table : Mnemonics α) (mnemonic : List Char) (shape : Shape) : Parse α :=
  ExceptT.mk (pure (Decoder.select table mnemonic shape))

/-- The value behind a sign, and the closing bracket. -/
def signed (negative : Bool) (symbols : Symbols) : Parse UInt32 := do
  Scan.skipSpaces
  let v ← value symbols
  punctuation ']' "`]`"
  return if negative then -v else v

/-- The displacement behind the base register of a memory operand. -/
def displacement (symbols : Symbols) : Parse UInt32 := do
  if ← Scan.eat ']' then
    Scan.skipSpaces
    return 0
  else if ← Scan.eat '+' then
    signed false symbols
  else if ← Scan.eat '-' then
    signed true symbols
  else
    throw (.malformed "`+`, `-` or `]`" (String.ofList (← Scan.rest)))

/-- A memory operand. -/
def memory (symbols : Symbols) : Parse MemoryOperand := do
  punctuation '[' "`[`"
  let base ← register
  let disp ← displacement symbols
  return ⟨base, disp⟩

/-- An instruction whose first operand is in memory. -/
def memoryFirst (mnemonic : List Char) (symbols : Symbols) : Parse Instruction := do
  let mem ← memory symbols
  Scan.skipCommas
  if ← Scan.atEnd then
    let op ← select WideOp.table mnemonic .mem
    return .mem op mem
  else
    match ← Scan.register with
    | some r1 =>
      finish
      let op ← select StoreOp.table mnemonic .memReg
      return .memReg op mem r1
    | none =>
      let v1 ← value symbols
      finish
      let op ← select StoreOp.table mnemonic .memImm
      return .memImm op mem v1

/-- The second register behind the base of an address. -/
def index : Scan (Option Reg) := Scan.attempt do
  if ← Scan.eat '+' then
    Scan.skipSpaces
    Scan.register
  else
    return none

/-- The sign between the last two parts of an address. -/
def indexSign : Parse IndexOp := do
  if ← Scan.eat '+' then
    Scan.skipSpaces
    return .add
  else if ← Scan.eat '*' then
    Scan.skipSpaces
    return .mul
  else
    throw (.malformed "`+` or `*`" (String.ofList (← Scan.rest)))

/-- An instruction with a register and a bracket. -/
def registerMemory (mnemonic : List Char) (r0 : Reg) (symbols : Symbols) : Parse Instruction := do
  punctuation '[' "`[`"
  let r1 ← register
  match ← index with
  | some r2 =>
    let sign ← indexSign
    let v0 ← value symbols
    punctuation ']' "`]`"
    finish
    select leaTable mnemonic .lea
    return .lea r0 r1 r2 sign v0
  | none =>
    let disp ← displacement symbols
    finish
    let op ← select LoadOp.table mnemonic .regMem
    return .regMem op r0 ⟨r1, disp⟩

/-- The value behind a register. -/
def registerValue (symbols : Symbols) : Parse UInt32 := do
  match ← Scan.keyword "offset".toList with
  | some () => expect (Scan.offset symbols) (Decoder.unreadable "an offset")
  | none =>
    expect (Scan.orElse Scan.number (Scan.localValue symbols))
      (Decoder.unreadable "a register, memory operand or value")

/-- An instruction whose first operand is a register. -/
def registerFirst (mnemonic : List Char) (r0 : Reg) (symbols : Symbols) : Parse Instruction := do
  Scan.skipCommas
  if ← Scan.atEnd then
    let op ← select RegOp.table mnemonic .reg
    return .reg op r0
  else
    match ← Scan.register with
    | some r1 =>
      Scan.skipCommas
      if ← Scan.atEnd then
        let op ← select PairOp.registerTable mnemonic .regReg
        return .regReg op r0 r1
      else
        let r2 ← register
        finish
        select shrdTable mnemonic .regRegReg
        return .shrd r0 r1 r2
    | none =>
      if ← Scan.nextIs '[' then
        registerMemory mnemonic r0 symbols
      else
        let v0 ← registerValue symbols
        finish
        let op ← select PairOp.valueTable mnemonic .regImm
        return .regImm op r0 v0

/-- An instruction whose first operand is a value. -/
def valueFirst (mnemonic : List Char) (symbols : Symbols) : Parse Instruction := do
  let v0 ← value symbols
  if ← Scan.eat '[' then
    Scan.skipSpaces
    let r0 ← register
    punctuation '*' "`*`"
    let v1 ← value symbols
    punctuation ']' "`]`"
    finish
    let condition ← select Condition.table mnemonic .jumpTable
    return .jumpTable condition v0 r0 v1
  else
    finish
    let op ← select ImmOp.table mnemonic .imm
    return .imm op v0

/-- A call of a host function. -/
def callTarget : Parse Instruction := do
  match ← Scan.identifier with
  | some target =>
    finish
    return .call (String.ofList target)
  | none => throw (.malformed "a call target" (String.ofList (← Scan.rest)))

/-- An instruction with a given mnemonic. -/
def operands (mnemonic : List Char) (symbols : Symbols) : Parse Instruction := do
  if ← Scan.atEnd then
    select retnTable mnemonic .none
    return .retn
  else if ← Scan.nextIs '[' then
    memoryFirst mnemonic symbols
  else
    match ← Scan.register with
    | some r0 => registerFirst mnemonic r0 symbols
    | none =>
      if (callTable.find? mnemonic).isSome then callTarget
      else valueFirst mnemonic symbols

/-- The instruction of a line. -/
def decode (symbols : Symbols) : Parse Instruction := do
  match ← Scan.mnemonic with
  | none => throw .missingMnemonic
  | some mnemonic => operands mnemonic symbols

/-! ## Answers -/

/-- In front of the end `text` of a line the step gives an answer.  `split` says what of the
answer is the value of the step, and where the step stops. -/
inductive Follows (line : List Char) (parse : Parse α) (text : List Char) :
    Except DecodeError β → (β → α × List Char) → Prop where
  | ok {b : β} {split : β → α × List Char}
      (h : Steps line parse.run text (.ok (split b).1, (split b).2)) :
      Follows line parse text (.ok b) split
  | error {e : DecodeError} {split : β → α × List Char} {left : List Char}
      (h : Steps line parse.run text (.error e, left)) : Follows line parse text (.error e) split

namespace Follows

variable {line text left : List Char} {answer : Except DecodeError β} {split : β → α × List Char}

theorem pure {a : α} {b : β} (h : split b = (a, text)) :
    Follows line (Pure.pure a) text (.ok b) split := by
  have hrun : Steps line (Pure.pure a : Parse α).run text (.ok a, text) := Steps.pure _
  exact .ok (by simpa only [h] using hrun)

theorem throw (e : DecodeError) : Follows line (MonadExcept.throw e) text (.error e) split :=
  .error (Steps.pure _)

/-- A scan in front of a step. -/
theorem step {scan : Scan γ} {c : γ} {next : γ → Parse α} (h : Steps line scan text (c, left))
    (k : Follows line (next c) left answer split) :
    Follows line (liftM scan >>= next) text answer split := by
  have hrun : (liftM scan >>= next : Parse α).run = scan >>= fun c => (next c).run := by
    simp [liftM, monadLift, MonadLift.monadLift]
  cases k with
  | ok k => exact .ok (by rw [hrun]; exact h.bind k)
  | error k => exact .error (by rw [hrun]; exact h.bind k)

/-- The second of two steps is taken if the first one has a value. -/
theorem bind_ok {parse : Parse α} {next : α → Parse γ} {b : β} {answer' : Except DecodeError δ}
    {split' : δ → γ × List Char} (h : Follows line parse text (.ok b) split)
    (k : Follows line (next (split b).1) (split b).2 answer' split') :
    Follows line (parse >>= next) text answer' split' := by
  cases h with
  | ok h =>
    cases k with
    | ok k => exact .ok (by rw [ExceptT.run_bind]; exact h.bind k)
    | error k => exact .error (by rw [ExceptT.run_bind]; exact h.bind k)

theorem bind_error {parse : Parse α} {next : α → Parse γ} {e : DecodeError}
    {split' : δ → γ × List Char} (h : Follows line parse text (.error e) split) :
    Follows line (parse >>= next) text (.error e) split' := by
  cases h with
  | error h => exact .error (by rw [ExceptT.run_bind]; exact h.bind (Steps.pure _))

theorem bind {parse : Parse α} {next : α → Parse γ} {answers : β → Except DecodeError δ}
    {split' : δ → γ × List Char} (h : Follows line parse text answer split)
    (k : ∀ b, answer = .ok b → Follows line (next (split b).1) (split b).2 (answers b) split') :
    Follows line (parse >>= next) text (answer >>= answers) split' := by
  cases answer with
  | ok b => exact h.bind_ok (k b rfl)
  | error e => exact h.bind_error

theorem suffix {parse : Parse α} {b : β} (h : Follows line parse text (.ok b) split)
    (htext : text <:+ line) : (split b).2 <:+ text := by
  cases h with
  | ok h => exact (h htext).1

/-- The step ends on a boundary of the line. -/
theorem exists_boundary {parse : Parse α} (h : Follows line parse text answer split)
    (htext : text <:+ line) :
    ∃ behind : Cursor, behind.OnBoundary line ∧
      parse.run (.place line text) = some (answer.map fun b => (split b).1, behind) := by
  cases h with
  | ok h =>
    obtain ⟨hleft, hrun⟩ := h htext
    exact ⟨_, Cursor.onBoundary_iff.2 ⟨_, hleft.trans htext, rfl⟩, hrun⟩
  | error h =>
    obtain ⟨hleft, hrun⟩ := h htext
    exact ⟨_, Cursor.onBoundary_iff.2 ⟨_, hleft.trans htext, rfl⟩, hrun⟩

/-- A step that gives the answer of the step before it another form. -/
theorem map {parse : Parse α} {next : α → Parse γ} {f : β → δ} {split' : δ → γ × List Char}
    (h : Follows line parse text answer split)
    (k : ∀ b, Follows line (next (split b).1) (split b).2 (.ok (f b)) split') :
    Follows line (parse >>= next) text (answer.map f) split' := by
  cases answer with
  | ok b => exact h.bind_ok (k b)
  | error e => exact h.bind_error

/-- A scan as the last step. -/
theorem lift {scan : Scan α} {b : β} (h : Steps line scan text (split b)) :
    Follows line (liftM scan) text (.ok b) split := by
  have hrun : (liftM scan : Parse α).run = scan >>= fun a => Pure.pure (.ok a) := by
    simp [liftM, monadLift, MonadLift.monadLift]
  exact .ok (by rw [hrun]; exact h.bind (Steps.pure _))

/-- The two cases at the end of the line and before it. -/
theorem atEnd {parse parse' : Parse α} {answer' : Except DecodeError β}
    (hnil : Follows line parse [] answer split)
    (hcons : text ≠ [] → Follows line parse' text answer' split) :
    Follows line (do if ← Scan.atEnd then parse else parse') text
      (if text = [] then answer else answer') split := by
  by_cases h : text = []
  · subst h
    exact .step .atEnd hnil
  · rw [if_neg h]
    have hend : Steps line Scan.atEnd text (false, text) := by
      simpa [List.isEmpty_eq_false_iff.2 h] using @Steps.atEnd line text
    exact .step hend (hcons h)

end Follows

/-! ## Steps and answers -/

variable {line text : List Char} (symbols : Symbols)

theorem follows_expect {scan : Scan (Option α)} {reader : Reader α} (h : Scan.Reads scan reader)
    {error : List Char → DecodeError} {answer : Except DecodeError (α × List Char)}
    (hsome : ∀ found, reader text = some found → answer = .ok found)
    (hnone : reader text = none → answer = .error (error text)) :
    Follows line (expect scan error) text answer fun result => result := by
  cases hread : reader text with
  | some found =>
    rw [hsome found hread]
    exact .step (h.steps_some hread) (.pure rfl)
  | none =>
    rw [hnone hread]
    exact .step (h.steps_none hread) (.step .rest (.throw _))

theorem follows_register :
    Follows line register text (Decoder.register text) fun result => result :=
  follows_expect Scan.reads_register (fun _ h => by rw [Decoder.register, h])
    fun h => by rw [Decoder.register, h]

theorem follows_value :
    Follows line (value symbols) text (Decoder.value symbols text) fun result => result :=
  follows_expect (Scan.reads_value symbols) (fun _ h => by rw [Decoder.value, h])
    fun h => by rw [Decoder.value, h]

theorem follows_punctuation {c : Char} (hc : c.toNat < 128) (expected : String) :
    Follows line (punctuation c expected) text (Decoder.punctuation c expected text)
      fun left => ((), left) := by
  unfold Decoder.punctuation
  cases h : skipChar? c text with
  | some rest => exact .step (.eat_of_some hc h) (.lift .skipSpaces)
  | none => exact .step (.eat_of_none hc h) (.step .rest (.throw _))

theorem follows_finish :
    Follows line finish text (Decoder.finish text) fun _ => ((), []) := by
  cases text with
  | nil => exact .step .atEnd (.pure rfl)
  | cons c text => exact .step .atEnd (.step .rest (.throw _))

theorem follows_select (table : Mnemonics α) (mnemonic : List Char) (shape : Shape) :
    Follows line (select table mnemonic shape) text (Decoder.select table mnemonic shape)
      fun op => (op, text) := by
  unfold select
  cases Decoder.select table mnemonic shape with
  | ok op => exact .ok (.pure _)
  | error e => exact .error (.pure _)

theorem follows_signed (negative : Bool) : Follows line (signed negative symbols) text
    (do
      let (v, rest) ← Decoder.value symbols (skipSpaces text)
      let rest ← Decoder.punctuation ']' "`]`" rest
      return (if negative then -v else v, rest)) fun result => result := by
  refine .step .skipSpaces ((follows_value symbols).bind fun (v, rest) _ => ?_)
  exact (follows_punctuation (by decide) "`]`").bind fun rest _ => .pure rfl

theorem follows_displacement :
    Follows line (displacement symbols) text (Decoder.displacement symbols text)
      fun result => result := by
  unfold Decoder.displacement
  cases hclose : skipChar? ']' text with
  | some rest => exact .step (.eat_of_some (by decide) hclose) (.step .skipSpaces (.pure rfl))
  | none =>
    refine .step (.eat_of_none (by decide) hclose) ?_
    cases hplus : skipChar? '+' text with
    | some rest => exact .step (.eat_of_some (by decide) hplus) (follows_signed symbols false)
    | none =>
      refine .step (.eat_of_none (by decide) hplus) ?_
      cases hminus : skipChar? '-' text with
      | some rest => exact .step (.eat_of_some (by decide) hminus) (follows_signed symbols true)
      | none => exact .step (.eat_of_none (by decide) hminus) (.step .rest (.throw _))

theorem follows_memory :
    Follows line (memory symbols) text (Decoder.memory symbols text) fun result => result := by
  refine (follows_punctuation (by decide) "`[`").bind fun rest _ => ?_
  refine follows_register.bind fun (base, rest) _ => ?_
  exact (follows_displacement symbols).bind fun (disp, rest) _ => .pure rfl

/-! ### Operand lists -/

/-- Where an instruction ends, nothing is left of the line. -/
def whole (instruction : Instruction) : Instruction × List Char :=
  (instruction, [])

/-- At the end of the line, the operation of the mnemonic and the instruction. -/
theorem follows_last_nil {make : α → Instruction} (table : Mnemonics α) (mnemonic : List Char)
    (shape : Shape) :
    Follows line
      (do
        let op ← select table mnemonic shape
        return make op) []
      (do
        let op ← Decoder.select table mnemonic shape
        return make op) whole :=
  (follows_select table mnemonic shape).bind fun _ _ => .pure rfl

/-- The same with a check that this is the end of the line. -/
theorem follows_last {make : α → Instruction} (table : Mnemonics α) (mnemonic : List Char)
    (shape : Shape) :
    Follows line
      (do
        finish
        let op ← select table mnemonic shape
        return make op) text
      (do
        Decoder.finish text
        let op ← Decoder.select table mnemonic shape
        return make op) whole :=
  follows_finish.bind fun _ _ => follows_last_nil table mnemonic shape

theorem follows_memoryFirst (mnemonic : List Char) :
    Follows line (memoryFirst mnemonic symbols) text (Decoder.memoryFirst mnemonic symbols text)
      whole := by
  refine (follows_memory symbols).bind fun (mem, rest) _ => .step .skipCommas ?_
  refine .atEnd (follows_last_nil WideOp.table mnemonic .mem) fun _ => ?_
  cases hread : register? (skipCommas rest) with
  | some found =>
    obtain ⟨r1, left⟩ := found
    exact .step (Scan.reads_register.steps_some hread) (follows_last StoreOp.table mnemonic .memReg)
  | none =>
    refine .step (Scan.reads_register.steps_none hread) ?_
    exact (follows_value symbols).bind fun (v1, left) _ =>
      follows_last StoreOp.table mnemonic .memImm

theorem reads_index : Scan.Reads index Decoder.index? := by
  intro line text
  cases hplus : skipChar? '+' text with
  | none =>
    simp only [Reader.outcome, Decoder.index?, hplus]
    exact .attempt_none (.bind (.eat_of_none (by decide) hplus) (.pure _))
  | some rest =>
    simp only [Reader.outcome, Decoder.index?, hplus]
    cases hread : register? (skipSpaces rest) with
    | none =>
      exact .attempt_none (.bind (.eat_of_some (by decide) hplus)
        (.bind .skipSpaces (Scan.reads_register.steps_none hread)))
    | some found =>
      exact .attempt_some (.bind (.eat_of_some (by decide) hplus)
        (.bind .skipSpaces (Scan.reads_register.steps_some hread)))

theorem follows_indexSign :
    Follows line indexSign text (Decoder.indexSign text) fun result => result := by
  unfold Decoder.indexSign
  cases hplus : skipChar? '+' text with
  | some rest => exact .step (.eat_of_some (by decide) hplus) (.step .skipSpaces (.pure rfl))
  | none =>
    refine .step (.eat_of_none (by decide) hplus) ?_
    cases hstar : skipChar? '*' text with
    | some rest => exact .step (.eat_of_some (by decide) hstar) (.step .skipSpaces (.pure rfl))
    | none => exact .step (.eat_of_none (by decide) hstar) (.step .rest (.throw _))

theorem follows_registerMemory (mnemonic : List Char) (r0 : Reg) :
    Follows line (registerMemory mnemonic r0 symbols) text
      (Decoder.registerMemory mnemonic r0 symbols text) whole := by
  refine (follows_punctuation (by decide) "`[`").bind fun rest _ => ?_
  refine follows_register.bind fun (r1, rest) _ => ?_
  dsimp only
  cases hread : Decoder.index? rest with
  | some found =>
    obtain ⟨r2, left⟩ := found
    refine .step (reads_index.steps_some hread) ?_
    refine follows_indexSign.bind fun (sign, left) _ => ?_
    refine (follows_value symbols).bind fun (v0, left) _ => ?_
    refine (follows_punctuation (by decide) "`]`").bind fun left _ => ?_
    exact follows_last leaTable mnemonic .lea
  | none =>
    refine .step (reads_index.steps_none hread) ?_
    refine (follows_displacement symbols).bind fun (disp, left) _ => ?_
    exact follows_last LoadOp.table mnemonic .regMem

theorem follows_registerValue :
    Follows line (registerValue symbols) text (Decoder.registerValue symbols text)
      fun result => result := by
  have hword : ∀ c ∈ "offset".toList, c.toNat < 128 := by simp
  unfold Decoder.registerValue
  cases hkeyword : keyword? "offset".toList text with
  | some rest =>
    refine .step (Scan.steps_keyword_of_some hword hkeyword) ?_
    exact follows_expect (Scan.reads_offset symbols) (fun _ h => by simp only [h])
      fun h => by simp only [h]
  | none =>
    refine .step (Scan.steps_keyword_of_none hword hkeyword) ?_
    exact follows_expect (Scan.reads_number.orElse (Scan.reads_localValue symbols))
      (fun _ h => by simp only [h])
      fun h => by simp only [h]

theorem follows_registerFirst (mnemonic : List Char) (r0 : Reg) :
    Follows line (registerFirst mnemonic r0 symbols) text
      (Decoder.registerFirst mnemonic r0 symbols text) whole := by
  unfold Decoder.registerFirst
  refine .step .skipCommas ?_
  refine .atEnd (follows_last_nil RegOp.table mnemonic .reg) fun _ => ?_
  cases hread : register? (skipCommas text) with
  | some found =>
    obtain ⟨r1, left⟩ := found
    refine .step (Scan.reads_register.steps_some hread) (.step .skipCommas ?_)
    refine .atEnd (follows_last_nil PairOp.registerTable mnemonic .regReg) fun _ => ?_
    refine follows_register.bind fun (r2, left) _ => ?_
    exact follows_last shrdTable mnemonic .regRegReg
  | none =>
    refine .step (Scan.reads_register.steps_none hread) ?_
    cases hbracket : startsWith (· == '[') (skipCommas text) with
    | true =>
      exact .step (.next (Bytewise.single (by decide)) hbracket)
        (follows_registerMemory symbols mnemonic r0)
    | false =>
      refine .step (.next (Bytewise.single (by decide)) hbracket) ?_
      refine (follows_registerValue symbols).bind fun (v0, left) _ => ?_
      exact follows_last PairOp.valueTable mnemonic .regImm

theorem follows_valueFirst (mnemonic : List Char) :
    Follows line (valueFirst mnemonic symbols) text (Decoder.valueFirst mnemonic symbols text)
      whole := by
  refine (follows_value symbols).bind fun (v0, rest) _ => ?_
  dsimp only
  cases hbracket : skipChar? '[' rest with
  | some left =>
    refine .step (.eat_of_some (by decide) hbracket) (.step .skipSpaces ?_)
    refine follows_register.bind fun (r0, left) _ => ?_
    refine (follows_punctuation (by decide) "`*`").bind fun left _ => ?_
    refine (follows_value symbols).bind fun (v1, left) _ => ?_
    refine (follows_punctuation (by decide) "`]`").bind fun left _ => ?_
    exact follows_last Condition.table mnemonic .jumpTable
  | none =>
    refine .step (.eat_of_none (by decide) hbracket) ?_
    exact follows_last ImmOp.table mnemonic .imm

theorem follows_callTarget :
    Follows line callTarget text (Decoder.callTarget text) whole := by
  unfold Decoder.callTarget
  cases hread : identifier? text with
  | some found =>
    obtain ⟨target, left⟩ := found
    exact .step (Scan.reads_identifier.steps_some hread)
      (follows_finish.bind fun _ _ => .pure rfl)
  | none => exact .step (Scan.reads_identifier.steps_none hread) (.step .rest (.throw _))

theorem follows_operands (mnemonic : List Char) :
    Follows line (operands mnemonic symbols) text (Decoder.operands mnemonic symbols text)
      whole := by
  refine .atEnd (follows_last_nil retnTable mnemonic .none) fun _ => ?_
  cases hbracket : startsWith (· == '[') text with
  | true =>
    exact .step (.next (Bytewise.single (by decide)) hbracket) (follows_memoryFirst symbols mnemonic)
  | false =>
    refine .step (.next (Bytewise.single (by decide)) hbracket) ?_
    cases hread : register? text with
    | some found =>
      exact .step (Scan.reads_register.steps_some hread)
        (follows_registerFirst symbols mnemonic found.1)
    | none =>
      refine .step (Scan.reads_register.steps_none hread) ?_
      cases hcall : (callTable.find? mnemonic).isSome with
      | true => exact follows_callTarget
      | false => exact follows_valueFirst symbols mnemonic

/-- Every line is decoded byte by byte as it is decoded character by character. -/
theorem follows_decode :
    Follows line (decode symbols) line (X86Listing.decode symbols line) whole := by
  unfold X86Listing.decode
  cases hread : mnemonic? line with
  | none => exact .step (Scan.reads_mnemonic.steps_none hread) (.throw _)
  | some found =>
    exact .step (Scan.reads_mnemonic.steps_some hread) (follows_operands symbols found.1)

end Parse

end X86Listing
