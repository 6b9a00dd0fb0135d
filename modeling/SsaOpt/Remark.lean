import SsaOpt.Func.Edit
import SsaOpt.Func.Printer

/-! Remarks: what the optimiser reports about its work, in order. A function under optimisation is
kept with the changes and the remarks made so far. -/

namespace SsaOpt

/-- The passes, in the order in which they run. -/
inductive Pass where
  | loads
  | values
  | motion
deriving DecidableEq, Repr

namespace Pass

def all : List Pass := [.loads, .values, .motion]

def name : Pass → String
  | .loads => "are"
  | .values => "vn"
  | .motion => "gcm"

end Pass

/-- How many changes each pass made. -/
structure Stats where
  loads : Nat := 0
  values : Nat := 0
  moves : Nat := 0
deriving DecidableEq, Repr

namespace Stats

def total (s : Stats) : Nat := s.loads + s.values + s.moves

def add (a b : Stats) : Stats :=
  { loads := a.loads + b.loads, values := a.values + b.values, moves := a.moves + b.moves }

/-- Only the given pass made changes. -/
def ofPass (n : Nat) : Pass → Stats
  | .loads => { loads := n }
  | .values => { values := n }
  | .motion => { moves := n }

end Stats

inductive Level where
  | warn | info | debug | trace
deriving DecidableEq, Repr

def Level.name : Level → String
  | .warn => "WARN"
  | .info => "INFO"
  | .debug => "DEBUG"
  | .trace => "TRACE"

/-- Where code motion may put an instruction, and where it does. -/
structure Site where
  earliest : BlockId
  latest : BlockId
  best : BlockId
  chosen : BlockId
  current : BlockId
deriving DecidableEq, Repr

/-- A `line` is the text of instruction `i` at the moment of the remark. -/
inductive Remark where
  | unknownValue (variableName value : String)
  | sideClobber (func : String) (b : BlockId)
  | loadReused (func : String) (i : InstId) (line : String) (earlier : InstId)
  | variantKept (i : InstId) (b : BlockId) (earlier : InstId) (home : BlockId)
  | valueReused (func : String) (i : InstId) (line : String) (earlier : InstId)
  | noLegalBlock (func : String) (i : InstId) (current : BlockId)
  | sited (i : InstId) (site : Site)
  | moved (func : String) (i : InstId) (line : String) (source dest : BlockId)
  | sweepLimit (func : String) (sweeps : Nat)
  | passDone (pass : Pass) (func : String) (changes : Nat)
  | totals (stats : Stats)
deriving DecidableEq, Repr

namespace Remark

def level : Remark → Level
  | .unknownValue .. | .sweepLimit .. => .warn
  | .passDone .. | .totals .. => .info
  | .loadReused .. | .valueReused .. | .noLegalBlock .. | .moved .. => .debug
  | .sideClobber .. | .variantKept .. | .sited .. => .trace

/-- Elapsed time is not measured; its place in the text holds a `T`. -/
def message : Remark → String
  | .unknownValue variableName value => s!"ignoring unknown {variableName} value `{value}`"
  | .sideClobber func b => s!"[ARE] {func}: clobber on a side path into {b}"
  | .loadReused func _ line earlier => s!"[ARE] {func}: {line} -> {earlier}"
  | .variantKept i b earlier home =>
    s!"[VN] keeping {i} in {b}: {earlier} in {home} is loop-variant"
  | .valueReused func _ line earlier => s!"[VN] {func}: {line} -> {earlier}"
  | .noLegalBlock func i current =>
    s!"[GCM] {func}: no legal block for {i}, leaving it in {current}"
  | .sited i s =>
    s!"[GCM] {i}: earliest={s.earliest} latest={s.latest} best={s.best} " ++
      s!"chosen={s.chosen} current={s.current}"
  | .moved func _ line source dest => s!"[GCM] {func}: move {line} from {source} to {dest}"
  | .sweepLimit func sweeps =>
    s!"[GCM] {func}: still moving instructions after {sweeps} sweeps, stopping"
  | .passDone pass func changes => s!"[PASS] {pass.name} (func {func}): T ({changes} changes)"
  | .totals s =>
    s!"[PASS] are_total: {s.loads} changes, vn_total: {s.values} changes, " ++
      s!"gcm_total: {s.moves} changes"

/-- The line of a log. -/
def render (r : Remark) : String := s!"{r.level.name} {r.message}"

end Remark

/-- A function under optimisation. -/
structure Progress where
  func : Func
  changes : Nat := 0
  remarks : Array Remark := #[]
deriving DecidableEq, Repr

namespace Progress

def note (p : Progress) (r : Remark) : Progress := { p with remarks := p.remarks.push r }

/-- Let everything that reads `i` read `earlier`, and delete `i`. -/
def replaceBy (p : Progress) (i earlier : InstId) : Checked Progress := do
  let (_, f) ← p.func.replaceUses i (.inst earlier)
  pure { p with func := ← f.erase i, changes := p.changes + 1 }

end Progress

end SsaOpt
