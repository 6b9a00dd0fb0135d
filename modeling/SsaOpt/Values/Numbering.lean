import SsaOpt.Analysis
import SsaOpt.ScopedTable
import SsaOpt.Settings
import SsaOpt.Values.Expression

/-! Value numbering: a pure instruction whose expression was computed before is replaced by the
earlier instruction. Across blocks this is done only if the earlier value depends on no phi, since
such a value may differ from one iteration of a loop to the next. The search for a phi looks through
other instructions, but not beyond one whose answer is known. -/

namespace SsaOpt

/-- Known answers. -/
abbrev PhiMemo := Bindings InstId Bool

namespace PhiMemo

/-- Where the search goes from `i`. -/
def next (memo : PhiMemo) (f : Func) (i : InstId) : List InstId :=
  if (memo.find? i).isSome then [] else f.reads i

/-- The search has found a phi, or an instruction known to depend on one. -/
def hits (memo : PhiMemo) (f : Func) (i : InstId) : Bool :=
  f.isPhi i || memo.find? i = some true

/-- The answer for `root`, and the answers known afterwards. -/
def ask (memo : PhiMemo) (f : Func) (root : InstId) : Bool × PhiMemo :=
  match memo.find? root with
  | some answer => (answer, memo)
  | none =>
    let answer := (Search.reach (memo.next f) [] f.insts.size [root]).any (memo.hits f)
    (answer, memo.insert root answer)

end PhiMemo

namespace Values

structure State where
  progress : Progress
  table : ScopedTable Expression InstId := {}
  memo : PhiMemo := {}

/-- `i` in block `b` computes what `earlier` computed. -/
def reuse (a : Analysis) (b : BlockId) (s : State) (i earlier : InstId) : Checked State := do
  let f := s.progress.func
  match (← f.inst earlier).home with
  | none => pure s
  | some home =>
    let (invariant, memo) :=
      if !a.dom.dominates home b then (false, s.memo)
      else if home = b then (true, s.memo)
      else
        let (dependent, memo) := s.memo.ask f earlier
        (!dependent, memo)
    let s := { s with memo }
    if invariant then
      let p := s.progress.note (.valueReused f.name i (← f.renderInst i) earlier)
      pure { s with progress := ← p.replaceBy i earlier }
    else pure { s with progress := s.progress.note (.variantKept i b earlier home) }

/-- One instruction of block `b`. -/
def visitInst (a : Analysis) (b : BlockId) (s : State) (i : InstId) : Checked State := do
  let f := s.progress.func
  match ← Expression.ofInst? f i with
  | none => pure s
  | some e =>
    match s.table.find? e with
    | none => pure { s with table := s.table.insert e i }
    | some earlier =>
      if earlier = i || !(← f.inst i).op.isPure then pure s else reuse a b s i earlier

def visit (a : Analysis) (s : State) : Visit → Checked State
  | .enter b => do
    let s := { s with table := s.table.pushScope }
    (← s.progress.func.block b).insts.foldlM (visitInst a b) s
  | .leave _ => do pure { s with table := ← s.table.popScope }

/-- The blocks in the order of the walk. Each block is left at once if expressions are not to be
seen outside it. -/
def walk (a : Analysis) : Visibility → List Visit
  | .block => a.dom.rpo.flatMap fun b => [.enter b, .leave b]
  | .domTree => a.dom.tour

/-- Number the values of a function. -/
def run (a : Analysis) (visibility : Visibility) (f : Func) : Checked Progress := do
  pure (← (walk a visibility).foldlM (visit a) { progress := { func := f } }).progress

end Values

end SsaOpt
