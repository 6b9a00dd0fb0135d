import SsaOpt.Remark

/-! Settings of the optimiser, and how they are read from named variables. -/

namespace SsaOpt.Text

/-- Characters with the `White_Space` property. -/
def isBlank (c : Char) : Bool :=
  let n := c.toNat
  (9 ≤ n && n ≤ 13) || n = 0x20 || n = 0x85 || n = 0xA0 || n = 0x1680 ||
    (0x2000 ≤ n && n ≤ 0x200A) || n = 0x2028 || n = 0x2029 || n = 0x202F || n = 0x205F || n = 0x3000

/-- The text without the blanks at its two ends. -/
def trim (cs : List Char) : List Char :=
  ((cs.dropWhile isBlank).reverse.dropWhile isBlank).reverse

/-- The pieces of a text between occurrences of `sep`; there is always at least one. -/
def splitOn (sep : Char) : List Char → List (List Char)
  | [] => [[]]
  | c :: rest =>
    if c = sep then [] :: splitOn sep rest
    else match splitOn sep rest with
      | [] => [[c]]
      | piece :: pieces => (c :: piece) :: pieces

end SsaOpt.Text

namespace SsaOpt

/-- Where code motion puts an instruction between its earliest and its latest legal block. -/
inductive Placement where
  /-- The least loop depth on the way up from the latest block. -/
  | hoist
  /-- The latest block. -/
  | late
deriving DecidableEq, Repr

/-- How far value numbering sees an expression. -/
inductive Visibility where
  /-- Within its block. -/
  | block
  /-- In every block that its block dominates. -/
  | domTree
deriving DecidableEq, Repr

structure Settings where
  runLoads : Bool := true
  runValues : Bool := true
  runMotion : Bool := true
  placement : Placement := .hoist
  visibility : Visibility := .block
  /-- Bound on the sweeps of code motion over one function. -/
  maxSweeps : Nat := 8
  /-- Report each pass when it is done. -/
  timed : Bool := false
  /-- Check the function after each pass. -/
  checked : Bool := false
deriving DecidableEq, Repr

def Settings.enabled (s : Settings) : Pass → Bool
  | .loads => s.runLoads
  | .values => s.runValues
  | .motion => s.runMotion

namespace Settings

/-- The number denoted by decimal digits. -/
def decimal? (cs : List Char) : Option Nat :=
  if cs.isEmpty || !cs.all Char.isDigit then none
  else some (cs.foldl (fun n c => 10 * n + (c.toNat - '0'.toNat)) 0)

/-- A count: decimal digits after at most one plus sign, below `2 ^ 64`. -/
def count? (s : String) : Option Nat :=
  let digits := match s.toList with
    | '+' :: cs => cs
    | cs => cs
  (decimal? digits).filter (· < Nat.pow 2 64)

/-- The entries of a list separated by commas, without the blanks around them. -/
def entries (s : String) : List String :=
  (Text.splitOn ',' s.toList).map fun cs => String.ofList (Text.trim cs)

/-- The list names the pass, or all passes. -/
def disables (list : String) (p : Pass) : Bool :=
  entries list |>.any fun e => e = "all" || e = p.name

def placementOf? : String → Option Placement
  | "late" => some .late
  | "hoist" => some .hoist
  | _ => none

def visibilityOf? : String → Option Visibility
  | "domtree" => some .domTree
  | "block" => some .block
  | _ => none

/-- The setting named by an optional value, and a warning if the value names none. -/
def choose {α : Type} (default : α) (known : String → Option α) (warning : String → Remark) :
    Option String → α × List Remark
  | none => (default, [])
  | some s =>
    match known s with
    | some a => (a, [])
    | none => (default, [warning s])

/-- Settings from named variables; what is missing or makes no sense keeps its default. -/
def ofLookup (lookup : String → Option String) : Settings × List Remark :=
  let disabled := (lookup "CCC_DISABLE_PASSES").getD ""
  let (placement, first) :=
    choose .hoist placementOf? (.unknownValue "CCC_GCM_POLICY") (lookup "CCC_GCM_POLICY")
  let (visibility, second) :=
    choose .block visibilityOf? (.unknownValue "CCC_VN_SCOPE") (lookup "CCC_VN_SCOPE")
  let settings : Settings :=
    { runLoads := !disables disabled .loads
      runValues := !disables disabled .values
      runMotion := !disables disabled .motion
      placement, visibility
      maxSweeps := (((lookup "CCC_GCM_MAX_SWEEPS").bind count?).map (max 1)).getD 8
      timed := (lookup "CCC_TIME_PASSES").isSome
      checked := (lookup "CCC_VERIFY_IR").isSome }
  (settings, first ++ second)

end Settings

end SsaOpt
