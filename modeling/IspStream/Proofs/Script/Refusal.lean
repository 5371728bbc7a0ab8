import IspStream.Proofs.Decoding.AddressMap
import IspStream.Proofs.Script.Instructions

/-!
# What is wrong with a command

A command that denotes nothing is refused, and the error names the first thing that is
wrong with it.  The order is fixed: the number of parameters, then the parameters from
left to right, where that of a programming command is the file name in front of the two
numbers, and the file last.  `Compiler.refusal?` is this order written down, without the
values that the parameters have.  Planning keeps to it (`errorOf?_plan`), and where nothing
is wrong the command denotes instructions (`refusal?_eq_none_iff`).

Whatever the reason is, the error is found before anything is emitted, because a plan is
complete or there is none.
-/

namespace IspStream

namespace Script

/-! ## The order of the checks -/

/-- The error of a computation. -/
def errorOf? {ε α : Type} : Except ε α → Option ε
  | .error error => some error
  | .ok _ => none

/-- The fault of the parameter at an index that has to be an integer. -/
def integerFault? (texts : List (List Char)) (index : Nat) : Option Fault :=
  texts[index]?.bind fun text =>
    match Text.Integer.literal? (Text.trim text) with
    | some _ => none
    | none => some (.invalidInteger (String.ofList (Text.trim text)))

/-- The fault of the first parameter, which has to be a file name. -/
def nameFault? (command : Command) (texts : List (List Char)) : Option Fault :=
  texts[0]?.bind fun text =>
    if (Text.trim text).isEmpty then some (.emptyFileName command) else none

/-- The faults of the parameters of a command, from left to right. -/
def faults (command : Command) (texts : List (List Char)) : List (Option Fault) :=
  match command with
  | .program _ => [nameFault? command texts, integerFault? texts 1, integerFault? texts 2]
  | _ => (List.range command.arity).map (integerFault? texts)

/-- The first fault in the parameters of a command. -/
def parameterFault? (command : Command) (texts : List (List Char)) : Option Fault :=
  if texts.length < command.arity then some (.missingParameter command texts.length)
  else (faults command texts).foldr Option.or none

/-- The file that a command names. -/
def file? (command : Command) (texts : List (List Char)) : Option String :=
  match command with
  | .program _ => name? texts
  | _ => none

end Script

namespace Compiler

open Script

/-- The error for a file that a script names, which is not there or is not decoded. -/
def fileError? (compiler : Compiler) (name : String) : Option Error :=
  match compiler.read (compiler.resolve name) with
  | .error fault => some (.file (compiler.resolve name) fault)
  | .ok text => errorOf? ((Image.blank compiler.settings.targetMemorySize).decode text 0).result

/-- The first thing that is wrong with the command of a numbered line. -/
def refusal? (compiler : Compiler) (number : Nat) (command : Command)
    (texts : List (List Char)) : Option Error :=
  match parameterFault? command texts with
  | some fault => some (.script fault number)
  | none => (file? command texts).bind compiler.fileError?

end Compiler

/-! ## Reading parameters keeps to the order -/

namespace Script

variable {ε α β : Type}

/-- What comes later counts only if nothing is wrong before. -/
theorem errorOf?_bind {value : Except ε α} {next : α → Except ε β} {fault later : Option ε}
    (hvalue : errorOf? value = fault) (hnext : ∀ result, errorOf? (next result) = later) :
    errorOf? (value >>= next) = fault.or later := by
  subst hvalue
  cases value with
  | error error => rfl
  | ok result => exact hnext result

variable {command : Command} {texts : List (List Char)} {index : Nat}

theorem get_eq_ok (h : index < texts.length) :
    Parameters.get ⟨command, texts⟩ index = .ok texts[index] := by
  rw [Parameters.get, List.getElem?_eq_getElem h]

theorem errorOf?_integer (h : index < texts.length) :
    errorOf? (Parameters.integer ⟨command, texts⟩ index) = integerFault? texts index := by
  unfold Parameters.integer integerFault?
  rw [get_eq_ok h, List.getElem?_eq_getElem h]
  change errorOf? (Script.integer texts[index]) = _
  simp only [Script.integer, Option.bind_some]
  cases Text.Integer.literal? (Text.trim texts[index]) <;> rfl

theorem errorOf?_byte (h : index < texts.length) :
    errorOf? (Parameters.byte ⟨command, texts⟩ index) = integerFault? texts index := by
  have hread : errorOf? (Parameters.byte ⟨command, texts⟩ index) =
      (integerFault? texts index).or none :=
    errorOf?_bind (errorOf?_integer h) fun _ => rfl
  rw [hread, Option.or_none]

theorem errorOf?_fileName (h : 0 < texts.length) :
    errorOf? (Parameters.fileName ⟨command, texts⟩ 0) = nameFault? command texts := by
  unfold Parameters.fileName nameFault?
  rw [get_eq_ok h, List.getElem?_eq_getElem h]
  change errorOf? (if (Text.trim texts[0]).isEmpty then _ else _) = _
  rw [Option.bind_some]
  split <;> rfl

/-- Reading the parameters stops at the first fault. -/
theorem errorOf?_read (h : command.arity ≤ texts.length) :
    errorOf? (Order.read ⟨command, texts⟩) = parameterFault? command texts := by
  rw [parameterFault?, if_neg (Nat.not_lt.mpr h)]
  cases command with
  | disconnect | finish => rfl
  | connect | countDown => exact errorOf?_bind (errorOf?_integer h) fun _ => rfl
  | wait => exact errorOf?_bind (errorOf?_byte h) fun _ => rfl
  | spiWrite =>
      have hbyte : ∀ index < 4, errorOf? (Parameters.byte ⟨.spiWrite, texts⟩ index) =
          integerFault? texts index := fun index hindex => errorOf?_byte (hindex.trans_le h)
      exact errorOf?_bind (hbyte 0 (by decide)) fun _ =>
        errorOf?_bind (hbyte 1 (by decide)) fun _ =>
        errorOf?_bind (hbyte 2 (by decide)) fun _ =>
        errorOf?_bind (hbyte 3 (by decide)) fun _ => rfl
  | spiVerify =>
      have hbyte : ∀ index < 5, errorOf? (Parameters.byte ⟨.spiVerify, texts⟩ index) =
          integerFault? texts index := fun index hindex => errorOf?_byte (hindex.trans_le h)
      exact errorOf?_bind (hbyte 0 (by decide)) fun _ =>
        errorOf?_bind (hbyte 1 (by decide)) fun _ =>
        errorOf?_bind (hbyte 2 (by decide)) fun _ =>
        errorOf?_bind (hbyte 3 (by decide)) fun _ =>
        errorOf?_bind (hbyte 4 (by decide)) fun _ => rfl
  | program memory =>
      have hfew : 3 ≤ texts.length := h
      exact errorOf?_bind (errorOf?_fileName (by omega)) fun _ =>
        errorOf?_bind (errorOf?_integer (by omega)) fun _ =>
        errorOf?_bind (errorOf?_integer (by omega)) fun _ => rfl

/-- The file that an order names. -/
def Order.file? : Order → Option String
  | .single _ => none
  | .file request => some request.name

/-- Only a programming command gives an order for a file, and it is for the file that the
command names. -/
theorem file?_of_read {order : Order} (h : Order.read ⟨command, texts⟩ = .ok order) :
    order.file? = Script.file? command texts := by
  have hread : (Order.read ⟨command, texts⟩).toOption = some order := by rw [h]; rfl
  cases command with
  | disconnect | finish =>
      cases h
      rfl
  | connect | wait | countDown =>
      simp only [Order.read, toOption_bind, toOption_pure, Option.bind_eq_some_iff] at hread
      obtain ⟨_, -, horder⟩ := hread
      cases horder
      rfl
  | spiWrite =>
      simp only [Order.read, toOption_bind, toOption_pure, Option.bind_eq_some_iff] at hread
      obtain ⟨_, -, _, -, _, -, _, -, horder⟩ := hread
      cases horder
      rfl
  | spiVerify =>
      simp only [Order.read, toOption_bind, toOption_pure, Option.bind_eq_some_iff] at hread
      obtain ⟨_, -, _, -, _, -, _, -, _, -, horder⟩ := hread
      cases horder
      rfl
  | program memory =>
      simp only [Order.read, toOption_bind, toOption_pure, toOption_fileName,
        Option.bind_eq_some_iff] at hread
      obtain ⟨name, hname, _, -, _, -, horder⟩ := hread
      cases horder
      exact hname.symm

end Script

/-! ## Planning keeps to the order -/

/-- Decoding fails at a line that is no record, or at one without a cell for its bytes. -/
theorem Image.error_of_decodeLines {offset number stop : Nat} {lines : List (List Char)}
    {bases : Bases} {image : Image} {error : Error}
    (h : (decodeLines offset number lines bases stop image).result = .error error) :
    (∃ fault line, error = .record fault line) ∨
      ∃ address line, error = .capacity address image.capacity line := by
  induction lines generalizing number bases stop image with
  | nil => cases h
  | cons line rest ih =>
      rw [decodeLines_cons] at h
      cases hline : Record.ofLine line with
      | error fault =>
          rw [hline] at h
          cases h
          exact Or.inl ⟨fault, number, rfl⟩
      | ok record? =>
          rw [hline] at h
          cases record? with
          | none => exact ih h
          | some record =>
              by_cases hfits : image.Fits offset (record.writes bases)
              · simp only [if_pos hfits] at h
                have hrest := ih h
                rwa [capacity_apply] at hrest
              · simp only [if_neg hfits] at h
                cases h
                exact Or.inr ⟨_, number, rfl⟩

namespace Compiler

open Script

variable {compiler : Compiler} {number : Nat} {command : Command} {texts : List (List Char)}

theorem errorOf?_planFile (request : Request) :
    errorOf? (compiler.planFile request).result = compiler.fileError? request.name := by
  rw [planFile, fileError?, Image.load]
  cases compiler.read (compiler.resolve request.name) with
  | error fault => rfl
  | ok text =>
      simp only
      cases ((Image.blank compiler.settings.targetMemorySize).decode text 0).result <;> rfl

/-- Planning a command fails with the first thing that is wrong with it. -/
theorem errorOf?_plan (number : Nat) (command : Command) (texts : List (List Char)) :
    errorOf? (compiler.plan number command texts).result =
      compiler.refusal? number command texts := by
  unfold plan refusal?
  split
  · rename_i hfew
    rw [parameterFault?, if_pos hfew]
    rfl
  · rename_i henough
    rw [← errorOf?_read (Nat.not_lt.mp henough)]
    cases hread : Order.read ⟨command, texts⟩ with
    | error fault => rfl
    | ok order =>
        simp only [errorOf?, ← file?_of_read hread]
        cases order with
        | single instruction => rfl
        | file request => exact errorOf?_planFile request

/-- A command denotes instructions exactly if nothing is wrong with it. -/
theorem refusal?_eq_none_iff (number : Nat) (command : Command) (texts : List (List Char)) :
    compiler.refusal? number command texts = none ↔
      ∃ list, compiler.commandInstructions command texts = some list := by
  rw [← errorOf?_plan, ← instructions_plan number]
  cases (compiler.plan number command texts).result with
  | error error => exact iff_of_false nofun fun ⟨_, h⟩ => nomatch h
  | ok plan => exact iff_of_true rfl ⟨_, rfl⟩

/-- A file is never to blame for a script error. -/
theorem fileError?_ne_script {name : String} (fault : Fault) (line : Nat) :
    compiler.fileError? name ≠ some (.script fault line) := by
  unfold fileError?
  split
  · exact fun h => nomatch h
  · cases hresult : ((Image.blank compiler.settings.targetMemorySize).decode _ 0).result with
    | ok stop => exact fun h => nomatch h
    | error error =>
        obtain ⟨_, _, rfl⟩ | ⟨_, _, rfl⟩ := Image.error_of_decodeLines hresult <;>
          exact fun h => nomatch h

/-- A script error is about the line itself. -/
theorem line_of_refusal? {fault : Fault} {line : Nat}
    (h : compiler.refusal? number command texts = some (.script fault line)) : line = number := by
  unfold refusal? at h
  split at h
  · cases h
    rfl
  · obtain ⟨name, -, hfile⟩ := Option.bind_eq_some_iff.mp h
    exact absurd hfile (fileError?_ne_script fault line)

end Compiler

end IspStream
