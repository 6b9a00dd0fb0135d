import SsaOpt.Loads.Elimination
import SsaOpt.Motion.Sweep
import SsaOpt.Values.Numbering
import SsaOpt.WellFormed

/-! The passes in sequence, over one function and over many. -/

namespace SsaOpt

/-- How far the optimiser came with a function. After a rejection the function is as the last edit
left it. -/
structure Run where
  func : Func
  remarks : Array Remark := #[]
  result : Except Rejection Stats := .ok {}

namespace Pipeline

def runPass (settings : Settings) (a : Analysis) (f : Func) :
    Pass → Checked (Progress × Option Rejection)
  | .loads => do pure (← Loads.run a f, none)
  | .values => do pure (← Values.run a settings.visibility f, none)
  | .motion => Motion.run a settings f

/-- Check a function if the settings ask for it. -/
def recheck (settings : Settings) (f : Func) : Checked (Option Rejection) :=
  if settings.checked then
    match f.check with
    | .ok () => .ok none
    | .error (.rejected r) => .ok (some r)
    | .error (.fault e) => .error e
  else .ok none

/-- Run the passes of a list, one after the other. -/
def runPasses (settings : Settings) (a : Analysis) : List Pass → Func → Stats → Array Remark →
    Checked Run
  | [], f, stats, remarks => pure ⟨f, remarks, .ok stats⟩
  | pass :: rest, f, stats, remarks => do
    match ← runPass settings a f pass with
    | (p, some r) => pure ⟨p.func, remarks ++ p.remarks, .error r⟩
    | (p, none) =>
      let p := if settings.timed then p.note (.passDone pass f.name p.changes) else p
      let remarks := remarks ++ p.remarks
      match ← recheck settings p.func with
      | some r => pure ⟨p.func, remarks, .error r⟩
      | none => runPasses settings a rest p.func (stats.add (.ofPass p.changes pass)) remarks

/-- Optimise one function. A declaration, or a function without blocks, stays as it is. -/
def runFunc (settings : Settings) (f : Func) : Checked Run := do
  if f.isDeclaration || f.numBlocks = 0 then pure { func := f }
  else
    let a ← Analysis.ofFunc f
    runPasses settings a (Pass.all.filter settings.enabled) f {} #[]

/-- How far the optimiser came with many functions. -/
structure Runs where
  funcs : List Func
  remarks : Array Remark
  result : Except Rejection Stats

/-- Optimise functions in turn and stop at the first rejection; functions after it stay as they
are. -/
def runFuncs (settings : Settings) : List Func → Stats → Checked Runs
  | [], stats =>
    pure ⟨[], if settings.timed then #[.totals stats] else #[], .ok stats⟩
  | f :: rest, stats => do
    let r ← runFunc settings f
    match r.result with
    | .error e => pure ⟨r.func :: rest, r.remarks, .error e⟩
    | .ok s => do
      let rs ← runFuncs settings rest (stats.add s)
      pure { rs with funcs := r.func :: rs.funcs, remarks := r.remarks ++ rs.remarks }

/-- Optimise all functions of a program. -/
def runAll (settings : Settings) (fs : List Func) : Checked Runs := runFuncs settings fs {}

end Pipeline

end SsaOpt
