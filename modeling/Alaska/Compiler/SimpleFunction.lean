import Mathlib.Data.List.Basic

/-!
# Simple functions and statepoints

`SimpleFunctionPass` marks the functions in which pin tracking has nothing to do, and
`PinTrackingPass` collects the statepoint calls of the others. Both scan every instruction
of a body, but not for the same instructions: the first asks every `CallInst` for the name
of its called function and looks at no `InvokeInst`, the second collects calls and invokes.
-/

namespace Alaska

/-- `StringRef::startswith`. -/
def startswith (name start : String) : Bool := start.toList.isPrefixOf name.toList

/-- The operand of a call that names what is called. -/
inductive CalledOperand where
  | function (name : String)
  /-- A pointer, or a function called at a type that is not its own. -/
  | indirect
  | inlineAsm
  deriving DecidableEq

/-- The part of a call that the two passes read. -/
structure CallSite where
  calledOperand : CalledOperand
  isVarArg : Bool
  returnsVoid : Bool
  deriving DecidableEq

namespace CallSite

/-- The called function's name; `none` is the null pointer. -/
def getCalledFunction (site : CallSite) : Option String :=
  match site.calledOperand with
  | .function name => some name
  | .indirect => none
  | .inlineAsm => none

def isInlineAsm (site : CallSite) : Bool := site.calledOperand == .inlineAsm

/-- Does a condition hold of the called function's name? No function has no name. -/
def calls (site : CallSite) (condition : String → Bool) : Bool :=
  match site.getCalledFunction with
  | some name => condition name
  | none => false

/-- The functions that are intrinsics are those with the reserved name. -/
def isIntrinsic (site : CallSite) : Bool := site.calls (startswith · "llvm.")

/-- A variadic call with a result cannot be a statepoint. -/
def isRestricted (site : CallSite) : Bool := site.isVarArg && !site.returnsVoid

end CallSite

/-- An instruction, with the blocks that control may go to when it ends a block. -/
inductive Instruction where
  | call (site : CallSite)
  | invoke (site : CallSite) (normalDest unwindDest : Nat)
  | terminator (successors : List Nat)
  | other
  deriving DecidableEq

structure FunctionBody where
  name : String
  blocks : List (List Instruction)

namespace FunctionBody

def empty (f : FunctionBody) : Bool := f.blocks.isEmpty

def instructions (f : FunctionBody) : List Instruction := f.blocks.flatten

/-- The bodies of parallel regions are skipped. -/
def isOutlined (f : FunctionBody) : Bool :=
  startswith f.name ".omp_outlined" || startswith f.name "omp_outlined"

end FunctionBody

/-! ## The two scans -/

namespace SimpleFunctionPass

/--
One instruction of the scan, with `hasProblematicCalls` before and after it. The name of the
called function is read without a check, so a call without one has no defined outcome.
-/
def scan (hasProblematicCalls : Bool) : Instruction → Option Bool
  | .call site => do
      let calledFunction ← site.getCalledFunction
      if startswith calledFunction "llvm." then some hasProblematicCalls else some true
  | _ => some hasProblematicCalls

/--
Is the function marked `alaska_is_simple`? The loops are the ones that the compiler's loop
analysis finds.
-/
def run {Loop : Type} (getLoopsInPreorder : FunctionBody → List Loop) (f : FunctionBody) :
    Option Bool :=
  if f.empty then some false
  else if f.isOutlined then some false
  else do
    let hasProblematicCalls ← f.instructions.foldlM scan false
    some ((getLoopsInPreorder f).length == 0 && hasProblematicCalls == false)

end SimpleFunctionPass

namespace PinTrackingPass

/-- Is the instruction collected as a statepoint? -/
def collects : Instruction → Bool
  | .call site =>
      !site.isIntrinsic && !site.isInlineAsm && !site.isRestricted &&
        !site.calls fun name => startswith name "alaska." || name == "alaska_do_handle_fault_check"
  | .invoke site _ _ =>
      !site.isInlineAsm && !site.isRestricted && !site.calls (startswith · "alaska.")
  | _ => false

/-- The calls collected from a body that is not skipped. -/
def statepointCalls (f : FunctionBody) : List Instruction :=
  if f.empty then [] else f.instructions.filter collects

end PinTrackingPass

/-! ## When the two passes agree -/

namespace SimpleFunctionPass

variable {Loop : Type} {loops : FunctionBody → List Loop} {f : FunctionBody}
  {instructions : List Instruction} {problematic : Bool} {site : CallSite}

/-- The calls with which a function is not simple. -/
def IsProblematic (inst : Instruction) : Prop :=
  ∃ site name, inst = .call site ∧ site.getCalledFunction = some name ∧
    startswith name "llvm." = false

/-- Every call of the body names the function it calls. -/
def NamesCallees (instructions : List Instruction) : Prop :=
  ∀ site, .call site ∈ instructions → site.getCalledFunction ≠ none

theorem scan_eq_none {inst : Instruction} :
    scan problematic inst = none ↔ ∃ site, inst = .call site ∧ site.getCalledFunction = none := by
  cases inst with
  | call site =>
      cases called : site.getCalledFunction with
      | none => simp [scan, called]
      | some name =>
          by_cases intrinsic : startswith name "llvm." <;> simp [scan, called, intrinsic]
  | invoke => simp [scan]
  | terminator => simp [scan]
  | other => simp [scan]

theorem scan_eq_some {inst : Instruction} {result : Bool}
    (scanned : scan problematic inst = some result) :
    result = true ↔ problematic = true ∨ IsProblematic inst := by
  cases inst with
  | call site =>
      cases called : site.getCalledFunction with
      | none => simp [scan, called] at scanned
      | some name =>
          by_cases intrinsic : startswith name "llvm."
          · simp only [scan, called, intrinsic, Option.bind_eq_bind, Option.bind_some, if_true,
              Option.some.injEq] at scanned
            simp [IsProblematic, called, intrinsic, scanned]
          · simp only [scan, called, intrinsic, Option.bind_eq_bind, Option.bind_some,
              Bool.false_eq_true, if_false, Option.some.injEq] at scanned
            simp [IsProblematic, called, intrinsic, ← scanned]
  | invoke => simp_all [scan, IsProblematic]
  | terminator => simp_all [scan, IsProblematic]
  | other => simp_all [scan, IsProblematic]

/-- The scan of a body is defined when every call names its callee. -/
theorem foldlM_scan_eq_none :
    instructions.foldlM scan problematic = none ↔ ¬ NamesCallees instructions := by
  induction instructions generalizing problematic with
  | nil => simp [NamesCallees]
  | cons inst rest ih =>
      rw [List.foldlM_cons]
      cases scanned : scan problematic inst with
      | none =>
          rcases scan_eq_none.mp scanned with ⟨site, rfl, called⟩
          simp only [Option.bind_eq_bind, Option.bind_none, true_iff]
          exact fun names => names site List.mem_cons_self called
      | some result =>
          have defined : ¬ ∃ site, inst = .call site ∧ site.getCalledFunction = none := by
            intro unnamed
            have undefined : scan problematic inst = none := scan_eq_none.mpr unnamed
            rw [scanned] at undefined
            cases undefined
          simp only [Option.bind_eq_bind, Option.bind_some, ih, NamesCallees, List.mem_cons]
          constructor
          · exact fun unnamed names => unnamed fun site member => names site (.inr member)
          · refine fun unnamed names => unnamed fun site member called => ?_
            rcases member with rfl | member
            · exact defined ⟨site, rfl, called⟩
            · exact names site member called

theorem foldlM_scan_eq_some {result : Bool}
    (scanned : instructions.foldlM scan problematic = some result) :
    result = true ↔ problematic = true ∨ ∃ inst ∈ instructions, IsProblematic inst := by
  induction instructions generalizing problematic with
  | nil => simp_all
  | cons inst rest ih =>
      rw [List.foldlM_cons] at scanned
      rcases Option.bind_eq_some_iff.mp scanned with ⟨between, first, others⟩
      rw [ih others, scan_eq_some first]
      simp [or_assoc]

/--
The two passes agree on a body: the scan reaches a decision, and a function that is marked
has no statepoint.
-/
def Agrees (loops : FunctionBody → List Loop) (f : FunctionBody) : Prop :=
  ∃ marked, run loops f = some marked ∧
    (marked = true → PinTrackingPass.statepointCalls f = [])

/--
The bodies on which the passes agree: every call names its callee, and there is a loop, a
call of a function that is not an intrinsic, or no invoke that pin tracking collects.
-/
def IsCovered (loops : FunctionBody → List Loop) (f : FunctionBody) : Prop :=
  f.empty ∨ f.isOutlined ∨
    NamesCallees f.instructions ∧
      (loops f ≠ [] ∨ (∃ inst ∈ f.instructions, IsProblematic inst) ∨
        ∀ site normal unwind, .invoke site normal unwind ∈ f.instructions →
          PinTrackingPass.collects (.invoke site normal unwind) = false)

/-- Without a problematic call, only invokes are collected. -/
theorem statepointCalls_eq_nil (names : NamesCallees f.instructions)
    (harmless : ¬ ∃ inst ∈ f.instructions, IsProblematic inst) (nonempty : f.empty = false) :
    PinTrackingPass.statepointCalls f = [] ↔
      ∀ site normal unwind, .invoke site normal unwind ∈ f.instructions →
        PinTrackingPass.collects (.invoke site normal unwind) = false := by
  simp only [PinTrackingPass.statepointCalls, nonempty, Bool.false_eq_true, if_false,
    List.filter_eq_nil_iff, Bool.not_eq_true]
  constructor
  · exact fun none_collected site normal unwind member => none_collected _ member
  · intro invokes inst member
    cases inst with
    | call site =>
        cases called : site.getCalledFunction with
        | none => exact absurd called (names site member)
        | some name =>
            by_cases intrinsic : startswith name "llvm."
            · simp [PinTrackingPass.collects, CallSite.isIntrinsic, CallSite.calls, called,
                intrinsic]
            · refine absurd ⟨.call site, member, site, name, rfl, called, ?_⟩ harmless
              simpa using intrinsic
    | invoke site normal unwind => exact invokes site normal unwind member
    | terminator => rfl
    | other => rfl

/-- The two passes agree exactly on the covered bodies. -/
theorem agrees_iff_isCovered : Agrees loops f ↔ IsCovered loops f := by
  unfold Agrees IsCovered run
  cases nonempty : f.empty with
  | true => simp
  | false =>
  cases outlined : f.isOutlined with
  | true => simp
  | false =>
  simp only [Bool.false_eq_true, if_false, false_or, Option.bind_eq_bind]
  cases scanned : f.instructions.foldlM scan false with
  | none =>
      have unnamed := foldlM_scan_eq_none.mp scanned
      simp [unnamed]
  | some problematic =>
      have names : NamesCallees f.instructions := by
        by_contra unnamed
        rw [foldlM_scan_eq_none.mpr unnamed] at scanned
        exact nomatch scanned
      have counted := foldlM_scan_eq_some scanned
      simp only [Bool.false_eq_true, false_or] at counted
      simp only [Option.bind_some, Option.some.injEq, exists_eq_left', names, true_and,
        Bool.and_eq_true, List.length_eq_zero_iff, Bool.beq_eq_decide_eq, decide_eq_true_eq]
      by_cases harmless : ∃ inst ∈ f.instructions, IsProblematic inst
      · simp [harmless, counted.mpr harmless]
      · have simple : problematic = false := by
          simpa using mt counted.mp harmless
        rw [statepointCalls_eq_nil names harmless nonempty]
        simp only [simple, harmless, false_or, and_true]
        exact imp_iff_not_or

/-- A leaf function that calls the function it is given. -/
def applyCallback : FunctionBody where
  name := "apply"
  blocks := [[.call ⟨.indirect, false, true⟩, .terminator []]]

/-- A function whose only call is an invoke. -/
def invokeOnly : FunctionBody where
  name := "guarded"
  blocks := [[.invoke ⟨.function "may_throw", false, true⟩ 1 2], [.terminator []],
    [.terminator []]]

/-- Neither body has a loop. The first scan reads a null name, the second misses an invoke. -/
theorem not_agrees_callback_invoke :
    ¬ Agrees (fun _ => ([] : List (List Nat))) applyCallback ∧
      ¬ Agrees (fun _ => ([] : List (List Nat))) invokeOnly := by
  constructor
  · rintro ⟨marked, decided, _⟩
    have undefined : run (fun _ => ([] : List (List Nat))) applyCallback = none := by decide
    rw [undefined] at decided
    exact nomatch decided
  · rintro ⟨marked, decided, skipped⟩
    have simple : run (fun _ => ([] : List (List Nat))) invokeOnly = some true := by decide
    obtain rfl := Option.some.inj (simple.symm.trans decided)
    exact absurd (skipped rfl) (by decide)

end SimpleFunctionPass

end Alaska
