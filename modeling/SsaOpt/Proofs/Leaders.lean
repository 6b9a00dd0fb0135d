import Mathlib.Data.List.Find
import SsaOpt.Proofs.PhiReach
import SsaOpt.Proofs.Values

/-! The leader of an expression is the first instruction that has it, among those of the open
blocks from the outermost one inwards and then those of the block itself. Deletions further on do
not change the leaders of what was seen. -/

namespace SsaOpt.Values

open Func

variable {f g g' : Func} {x e i : InstId} {b c : BlockId} {path : List BlockId}
  {l front rest seen : List InstId} {k : Expression}

/-- The instruction has the expression. -/
def keyed (g : Func) (k : Expression) (i : InstId) : Bool := Expression.ofInst? g i = .ok (some k)

/-- The first instruction of a list that has an expression. -/
def leader (g : Func) (l : List InstId) (k : Expression) : Option InstId := l.find? (keyed g k)

/-- The instructions of the open blocks, outermost block first. -/
def shown (g : Func) (path : List BlockId) : List InstId := path.reverse.flatMap g.listOf

/-- The leaders in the open blocks, then those after each of the blocks is left. -/
def leads (g : Func) : List BlockId → List (Expression → Option InstId)
  | [] => [leader g []]
  | b :: path => leader g (shown g (b :: path)) :: leads g path

theorem keyed_iff : keyed g k i ↔ Expression.ofInst? g i = .ok (some k) := decide_eq_true_iff

theorem shown_cons : shown g (b :: path) = shown g path ++ g.listOf b := by
  simp [shown]

theorem mem_shown : i ∈ shown g path ↔ ∃ c ∈ path, i ∈ g.listOf c := by
  simp [shown]

theorem leads_eq_cons (g : Func) (path : List BlockId) :
    leads g path = leader g (shown g path) :: (leads g path).tail := by
  cases path <;> rfl

theorem length_leads (g : Func) (path : List BlockId) :
    (leads g path).length = path.length + 1 := by
  induction path with
  | nil => rfl
  | cons b path ih => simp [leads, ih]

theorem leader_spec (h : leader g l k = some e) : e ∈ l ∧ keyed g k e :=
  ⟨List.mem_of_find?_eq_some h, List.find?_some h⟩

theorem not_keyed_of_leader (h : leader g l k = none) (hi : i ∈ l) : ¬keyed g k i :=
  List.find?_eq_none.mp h i hi

theorem keyed_unique {k' : Expression} (h : keyed g k i) (h' : keyed g k' i) : k = k' :=
  Option.some.inj (Except.ok.inj ((keyed_iff.mp h).symm.trans (keyed_iff.mp h')))

/-- An instruction whose expression has a leader does not become one. -/
theorem leader_concat_of_isSome (h : ∀ k, keyed g k x → (leader g l k).isSome) :
    leader g (l ++ [x]) = leader g l := by
  funext k
  unfold leader
  rw [List.find?_append]
  cases hk : keyed g k x with
  | true => exact Option.or_of_isSome (h k hk)
  | false => simp [hk]

/-- An instruction whose expression has no leader becomes one. -/
theorem leader_concat_of_none (hx : keyed g k x) (h : leader g l k = none) (k' : Expression) :
    leader g (l ++ [x]) k' = if k' = k then some x else leader g l k' := by
  unfold leader at h ⊢
  rw [List.find?_append]
  split
  · next heq =>
    subst heq
    simp [h, hx]
  · next hne =>
    have hx' : keyed g k' x = false := by
      rw [Bool.eq_false_iff]
      exact fun hx' => hne (keyed_unique hx' hx)
    simp [hx']

theorem leader_congr (h : ∀ i ∈ l, ∀ k, keyed g' k i = keyed g k i) : leader g' l = leader g l := by
  funext k
  exact List.find?_congr fun i hi => h i hi k

theorem shown_congr (h : ∀ c ∈ path, g'.listOf c = g.listOf c) : shown g' path = shown g path := by
  unfold shown
  exact List.flatMap_congr fun c hc => h c (List.mem_reverse.mp hc)

theorem leads_congr (hlists : ∀ c ∈ path, g'.listOf c = g.listOf c)
    (hkeys : ∀ c ∈ path, ∀ i ∈ g.listOf c, ∀ k, keyed g' k i = keyed g k i) :
    leads g' path = leads g path := by
  induction path with
  | nil => rfl
  | cons b path ih =>
    obtain ⟨-, hlists'⟩ := List.forall_mem_cons.mp hlists
    obtain ⟨-, hkeys'⟩ := List.forall_mem_cons.mp hkeys
    refine congrArg₂ List.cons ?_ (ih hlists' hkeys')
    rw [shown_congr hlists]
    refine leader_congr fun i hi k => ?_
    obtain ⟨c, hc, hi⟩ := mem_shown.mp hi
    exact hkeys c hc i hi k

/-- An expression is pure if the opcode of the instructions that have it is. -/
theorem exists_isPure_eq (hg : g.Valid) (hlayout : g.LaidOut) (hx : x ∈ g.listOf b)
    (hk : keyed g k x) : ∃ z, g.bare? x = some z ∧ k.isPure = z.op.isPure := by
  obtain ⟨z, hz, -, hexp⟩ := Expression.exists_explains hg hlayout hx (keyed_iff.mp hk)
  exact ⟨z, hz, hexp.pure⟩

/-! ## What deletions leave alone -/

theorem keyed_of_seen (hpr : Pruned f g seen) (hx : x ∉ seen) (hg : Replaced g x e g')
    (hi : i ∈ seen) (k : Expression) : keyed g' k i = keyed g k i := by
  by_cases hphi : f.isPhi i
  · -- a phi has no expression, whatever it reads
    have hphi' : g.isPhi i := hpr.isPhi_eq i ▸ hphi
    have hphi'' : g'.isPhi i := by rwa [Func.isPhi_eq, hg.op?_eq, ← Func.isPhi_eq]
    have hnot : ∀ {h : Func}, h.isPhi i → keyed h k i = false := fun hh => by
      rw [Bool.eq_false_iff]
      exact fun hk => Expression.not_isPhi_of_ofInst? (keyed_iff.mp hk) hh
    rw [hnot hphi', hnot hphi'']
  · unfold keyed
    rw [Expression.ofInst?_congr (hpr.bare_of_seen hx hg hi hphi)]

theorem filter_ne_of_not_mem (hx : x ∉ l) : l.filter (· ≠ x) = l := by
  refine List.filter_eq_self.mpr fun i hi => ?_
  have hne : i ≠ x := fun hix => hx (hix ▸ hi)
  simpa using hne

theorem listOf_of_not_mem (hg : Replaced g x e g') (hx : x ∉ g.listOf c) :
    g'.listOf c = g.listOf c := by
  rw [hg.lists, filter_ne_of_not_mem hx]

theorem listOf_of_split (hcons : g.Consistent) (hg : Replaced g x e g')
    (h : g.listOf b = front ++ x :: rest) : g'.listOf b = front ++ rest := by
  have hnodup := hcons.list_nodup b
  rw [h, List.nodup_middle] at hnodup
  rw [hg.lists, h, List.filter_append, List.filter_cons_of_neg (by simp), ← List.filter_append,
    filter_ne_of_not_mem (List.nodup_cons.mp hnodup).1]

/-- Instructions with one pure expression read the same. -/
theorem phiBelow_of_keyed (hg : g.Valid) (hlayout : g.LaidOut) (hpure : k.isPure)
    (hx : x ∈ g.listOf b) (hkx : keyed g k x) (he : e ∈ g.listOf c) (hke : keyed g k e)
    (h : g.PhiBelow e) : g.PhiBelow x := by
  have hnot : ∀ {i}, keyed g k i → ¬g.isPhi i := fun hk =>
    Expression.not_isPhi_of_ofInst? (keyed_iff.mp hk)
  obtain ⟨z, hz, -, hexp⟩ := Expression.exists_explains hg hlayout hx (keyed_iff.mp hkx)
  obtain ⟨w, hw, -, hexp'⟩ := Expression.exists_explains hg hlayout he (keyed_iff.mp hke)
  rw [phiBelow_iff_of_not_isPhi (hnot hke)] at h
  rw [phiBelow_iff_of_not_isPhi (hnot hkx)]
  obtain ⟨d, hd, hbelow⟩ := h
  refine ⟨d, ?_, hbelow⟩
  rw [mem_reads_iff_of_bare hw, ← hexp'.operands (hexp'.pure ▸ hpure)] at hd
  rwa [mem_reads_iff_of_bare hz, ← hexp.operands (hexp.pure ▸ hpure)]

end SsaOpt.Values
