import SsaOpt.Pipeline
import SsaOpt.Proofs.Loads
import SsaOpt.Proofs.Motion
import SsaOpt.Proofs.Values

/-! The passes in sequence: each of them leaves a function that is accepted, and the analysis that
they share stays the analysis of the function. -/

namespace SsaOpt

namespace Pipeline

open Func

variable {f : Func} {a : Analysis} {settings : Settings} {stats : Stats} {remarks : Array Remark}

/-! ## One pass -/

/-- A pass is a chain of edits, also if a rejection ended it. -/
theorem runPass_amended {pass : Pass} {p : Progress} {r : Option Rejection} (hf : f.Orderly)
    (ha : Analysis.ofFunc f = .ok a) (h : runPass settings a f pass = .ok (p, r)) :
    Amended f p.func := by
  obtain ⟨rank, hd⟩ := Analysis.describes ha hf.valid.entry_lt
  cases pass with
  | loads =>
    obtain ⟨q, seen, table, hq, hpruned, -⟩ := Loads.exists_run hd hf.valid hf.tied hf.laidOut
    simp only [runPass, hq, bind, Except.bind] at h
    obtain ⟨rfl, -⟩ := Prod.mk.inj (pure_eq_ok_iff.mp h)
    exact hpruned.amended
  | values =>
    obtain ⟨q, hq, ⟨seen, hpruned⟩, -⟩ := Values.exists_run hd hf.valid hf.laidOut
      settings.visibility
    simp only [runPass, hq, bind, Except.bind] at h
    obtain ⟨rfl, -⟩ := Prod.mk.inj (pure_eq_ok_iff.mp h)
    exact hpruned.amended
  | motion => exact (Motion.sweeps_moved hd hf.unread _ (.refl hf.valid) h).amended

/-- There is nothing to do for a function without blocks. -/
theorem runPass_of_no_blocks {pass : Pass} {p : Progress} {r : Option Rejection}
    (ha : Analysis.ofFunc f = .ok a) (h₀ : ¬0 < f.numBlocks)
    (h : runPass settings a f pass = .ok (p, r)) : p.func = f := by
  cases pass with
  | loads =>
    simp only [runPass, Loads.run_of_no_blocks h₀, bind, Except.bind] at h
    obtain ⟨rfl, -⟩ := Prod.mk.inj (pure_eq_ok_iff.mp h)
    rfl
  | values =>
    simp only [runPass, Values.run_of_no_blocks ha h₀, bind, Except.bind] at h
    obtain ⟨rfl, -⟩ := Prod.mk.inj (pure_eq_ok_iff.mp h)
    rfl
  | motion => exact Motion.run_of_placed_nil (placed_eq_nil h₀) h

/-! ## A list of passes -/

theorem func_noted (p : Progress) (note : Remark) :
    (if settings.timed then p.note note else p).func = p.func := by
  split <;> rfl

/-- What every pass keeps, a list of passes keeps, wherever it ends. -/
theorem runPasses_keeps {P : Func → Prop} (hstep : ∀ {g pass p r}, P g →
      runPass settings a g pass = .ok (p, r) → P p.func) {passes : List Pass} {r : Run}
    (hf : P f) (h : runPasses settings a passes f stats remarks = .ok r) : P r.func := by
  induction passes generalizing f stats remarks with
  | nil => exact pure_eq_ok_iff.mp h ▸ hf
  | cons pass rest ih =>
    obtain ⟨⟨p, rejected⟩, hpass, h⟩ := bind_eq_ok_iff.mp h
    have hp := hstep hf hpass
    cases rejected with
    | some e => exact pure_eq_ok_iff.mp h ▸ hp
    | none =>
      obtain ⟨rejected, -, h⟩ := bind_eq_ok_iff.mp h
      simp only [func_noted] at h
      cases rejected with
      | some e => exact pure_eq_ok_iff.mp h ▸ hp
      | none => exact ih hp h

theorem runPasses_amended {passes : List Pass} {r : Run} (hf : f.Orderly)
    (ha : Analysis.ofFunc f = .ok a) (h : runPasses settings a passes f stats remarks = .ok r) :
    Amended f r.func :=
  runPasses_keeps (P := Amended f) (fun hg hpass =>
    hg.trans (runPass_amended (hg.orderly hf) (hg.analysis hf.valid ha) hpass)) .refl h

/-- A function with a body that is accepted, and its analysis. -/
structure Accepted (a : Analysis) (f : Func) : Prop where
  body : f.isDeclaration = false
  check : f.check = .ok ()
  analysis : Analysis.ofFunc f = .ok a

theorem runPasses_of_accepted {passes : List Pass} {r : Run} (hbuilt : f.Built)
    (hf : Accepted a f) (hlayout : f.LaidOut)
    (hterm : ∀ b, ∀ i ∈ f.listOf b, ∀ d ∈ f.reads i, ¬f.ends d)
    (h : runPasses settings a passes f stats remarks = .ok r) : Accepted a r.func := by
  by_cases h₀ : 0 < f.numBlocks
  · have hord := hbuilt.orderly hf.body hf.check h₀ hlayout hterm
    have hamended := runPasses_amended hord hf.analysis h
    refine ⟨?_, (hamended.orderly hord).check, hamended.analysis hord.valid hf.analysis⟩
    have hsig : r.func.isDeclaration = f.isDeclaration :=
      congrArg (fun s => s.2.2.2) hamended.signature
    rw [hsig, hf.body]
  · have heq : r.func = f := runPasses_keeps (P := (· = f)) (fun hg hpass => by
      subst hg
      exact runPass_of_no_blocks hf.analysis h₀ hpass) rfl h
    rw [heq]
    exact hf

/-- **The passes keep a function well formed, and keep its analysis.** Take a function that was
accepted, whose instructions have the operands that they are built with, and in which no placed
instruction reads a terminator. After any list of passes, and so after each pass of the pipeline,
the function is still accepted, and analysing it anew gives the graph and the dominator tree that
the passes started with. This holds for all settings, and also where a rejection ended the
passes. -/
theorem passes_keep_accepted {f : Func} (hbuilt : f.Built) {a : Analysis} (hf : Accepted a f)
    (hlayout : f.LaidOut) (hterm : ∀ b, ∀ i ∈ f.listOf b, ∀ d ∈ f.reads i, ¬f.ends d)
    (settings : Settings) :
    (∀ {passes stats remarks r}, runPasses settings a passes f stats remarks = .ok r →
      Accepted a r.func) ∧
      ∀ {r}, runFunc settings f = .ok r → Accepted a r.func := by
  refine ⟨fun h => runPasses_of_accepted hbuilt hf hlayout hterm h, fun {r} h => ?_⟩
  rw [runFunc] at h
  split at h
  · exact pure_eq_ok_iff.mp h ▸ hf
  · obtain ⟨a', ha', h⟩ := bind_eq_ok_iff.mp h
    obtain rfl := Except.ok.inj (hf.analysis.symm.trans ha')
    exact runPasses_of_accepted hbuilt hf hlayout hterm h

/-- A loop that loads an element again that was loaded before it, and stores a multiple of it to
another element. -/
def scalingLoop : Func := .made [.ptr, .i32] [
  .block, .block, .block, .block,
  .switch ⟨0⟩, .elementPtr (.arg 0) [.lit (.i64 0)], .load .i32 (.inst ⟨0⟩), .jump ⟨1⟩,
  .switch ⟨1⟩, .phi .i32, .compare .slt (.inst ⟨3⟩) (.arg 1), .branch (.inst ⟨4⟩) ⟨2⟩ ⟨3⟩,
  .switch ⟨2⟩, .elementPtr (.arg 0) [.lit (.i64 0)], .load .i32 (.inst ⟨6⟩),
  .binary .mul .i32 (.inst ⟨7⟩) (.arg 1), .elementPtr (.arg 0) [.lit (.i64 1)],
  .store (.inst ⟨8⟩) (.inst ⟨9⟩), .binary .add .i32 (.inst ⟨3⟩) (.lit (.i32 1)), .jump ⟨1⟩,
  .switch ⟨3⟩, .ret (some (.inst ⟨3⟩)),
  .incoming ⟨3⟩ (.lit (.i32 0)) ⟨0⟩, .incoming ⟨3⟩ (.inst ⟨11⟩) ⟨2⟩]

/-- Each pass finds work in the loop, and the loop is accepted at the end. -/
theorem passes_keep_accepted_scalingLoop : ∃ a r, Accepted a scalingLoop ∧
    runFunc { visibility := .domTree } scalingLoop = .ok r ∧ r.result = .ok ⟨1, 1, 2⟩ ∧
      Accepted a r.func := by
  obtain ⟨a, ha, -⟩ := exists_ok_of_any (x := Analysis.ofFunc scalingLoop) (q := fun _ => true)
    (by decide +kernel)
  obtain ⟨r, hrun, hresult⟩ := exists_ok_of_any
    (x := runFunc { visibility := .domTree } scalingLoop)
    (q := fun r => r.result = .ok ⟨1, 1, 2⟩) (by decide +kernel)
  have hloop : Accepted a scalingLoop := ⟨by decide +kernel, by decide +kernel, ha⟩
  have hterm : ∀ b, ∀ i ∈ scalingLoop.listOf b, ∀ d ∈ scalingLoop.reads i,
      ¬scalingLoop.ends d := forall_placed (by decide +kernel)
  exact ⟨a, r, hloop, hrun, of_decide_eq_true hresult,
    (passes_keep_accepted (built_made _ _) hloop (by decide +kernel) hterm _).2 hrun⟩

end Pipeline

end SsaOpt
