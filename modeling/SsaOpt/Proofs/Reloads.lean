import SsaOpt.Proofs.Retention

/-! Which repeated loads are eliminated.

On the way down the dominator tree from a load to one that repeats it, the address stays in the
table. But the tour goes through other blocks in between, and what they clear is not put back when
they are left. -/

namespace SsaOpt

namespace Loads

open Func

variable {f : Func} {a : Analysis} {rank : BlockId → Nat} {s : State} {x e : InstId}
  {b source target : BlockId} {done path clobbers : List BlockId} {pre : List InstId}
  {k : Address} {eligible : List Address}

/-! ## The tour -/

/-- The tour comes through the block without clearing the table, unless the block dominates the
target. -/
def Spared (a : Analysis) (f : Func) (target c : BlockId) : Prop :=
  ¬f.Dom c target → EnteredClean a f c ∧ ∀ i ∈ f.listOf c, ¬f.Clobbers i

/-- Of the blocks that the tour has entered, those after the source are spared. -/
def Quiet (a : Analysis) (f : Func) (source target : BlockId) (done : List BlockId) : Prop :=
  ∀ front mid, done = front ++ source :: mid → ∀ c ∈ mid, Spared a f target c

theorem Quiet.of_concat (h : Quiet a f source target (done ++ [b])) :
    Quiet a f source target done := by
  intro front mid hdone c hc
  exact h front (mid ++ [b]) (by simp [hdone]) c (by simp [hc])

theorem Quiet.last (h : Quiet a f source target (done ++ [b])) (hmem : source ∈ done) :
    Spared a f target b := by
  obtain ⟨front, mid, hdone⟩ := List.append_of_mem hmem
  exact h front (mid ++ [b]) (by simp [hdone]) b (by simp)

/-- A block inside the source is entered with the address in the table. -/
def Carried (a : Analysis) (f : Func) (source target : BlockId) (done : List BlockId)
    (b : BlockId) : Prop :=
  source ≠ b ∧ target ∉ done ∧ Quiet a f source target done ∧ EnteredClean a f b

/-- Between two visits of the tour, of which `done` are the blocks that it has entered. -/
structure Touring (a : Analysis) (f : Func) (x : InstId) (k : Address) (source target : BlockId)
    (pre : List InstId) (done path : List BlockId) (s : State) : Prop where
  eliminated : Eliminated f done path s
  keeps : KeyKept f s.progress.func (done.flatMap f.listOf) k → target ∉ done →
    Quiet a f source target done → ∀ inner outer, path = inner ++ source :: outer →
    Keeps k inner.length s
  found : ∀ front back, done = front ++ target :: back →
    KeyKept f s.progress.func (front.flatMap f.listOf ++ pre) k → Quiet a f source target front →
    ∃ e', (x, e') ∈ s.progress.reuses

namespace Touring

theorem start (hf : f.Valid) :
    Touring a f x k source target pre [] [] { progress := { func := f } } := by
  refine ⟨eliminated_start hf, fun _ _ _ inner outer hpath => ?_, fun front back hdone => ?_⟩
  · simp at hpath
  · simp at hdone

theorem leave (h : Touring a f x k source target pre done (b :: path) s) :
    ∃ s', visit a eligible clobbers s (.leave b) = .ok s' ∧
      Touring a f x k source target pre done path s' := by
  obtain ⟨s', hs', hel⟩ : ∃ s', visit a eligible clobbers s (.leave b) = .ok s' ∧
    Eliminated f done path s' := visit_leave h.eliminated
  obtain rfl := Except.ok.inj hs'
  refine ⟨_, rfl, hel, fun hkey hnot hquiet inner outer hpath => ?_, h.found⟩
  refine Keeps.leaveBlock (h.keeps hkey hnot hquiet (b :: inner) outer ?_)
  rw [hpath, List.cons_append]

end Touring

/-- A load that is available at the target stands in a dominator, and in the target itself it stands
before. -/
theorem dom_of_avail {post : List InstId} (hf : f.Consistent) (hsource : e ∈ f.listOf source)
    (htarget : f.listOf target = pre ++ x :: post) (hreached : f.Reached target)
    (havail : f.Avail target pre e) : f.Dom source target ∧ (source = target → e ∈ pre) := by
  rcases havail with he | ⟨home, he, hne, hdom⟩
  · obtain rfl := hf.home_unique hsource (by simp [htarget, he] : e ∈ f.listOf target)
    exact ⟨.refl hreached, fun _ => he⟩
  · obtain rfl := hf.home_unique hsource he
    exact ⟨hdom, fun heq => absurd heq hne⟩

section Armed

variable {post : List InstId} (hd : a.Describes f rank) (hf : f.Valid) (hreload : f.Reload e x k)
  (hsource : e ∈ f.listOf source) (htarget : f.listOf target = pre ++ x :: post)
  (hdom : f.Dom source target)
include hd hf hreload hsource htarget hdom

/-- A block before the target is left with the address in the table. -/
theorem armed_through (hsb : f.Dom source b) (hmem : source ≠ b → source ∈ done) (hbt : b ≠ target)
    (hnot : target ∉ done) (hquiet : Quiet a f source target (done ++ [b])) :
    Armed f e (Carried a f source target done b) (f.listOf b) := by
  have hclean := hreload.unclobbered
  by_cases hne : source = b
  · subst hne
    obtain ⟨l₁, l₂, he⟩ := List.append_of_mem hsource
    refine .inr ⟨l₁, l₂, he, fun j hj => ?_⟩
    exact clean_ends hf.consistent hclean htarget he hdom hbt j (by simp [hj])
  · have hb : EnteredClean a f b ∧ ∀ j ∈ f.listOf b, ¬f.Clobbers j := by
      by_cases hdom' : f.Dom b target
      · obtain ⟨hentered, hlist⟩ := clean_between hf.consistent hclean htarget hd hsource hsb hne
          hdom'
        exact ⟨hentered, hlist hbt⟩
      · exact hquiet.last (hmem hne) hdom'
    exact .inl ⟨⟨hne, hnot, hquiet.of_concat, hb.1⟩, hb.2⟩

/-- The second load is come to with the address in the table. -/
theorem armed_before (hb : f.Reached target) (hsame : source = target → e ∈ pre)
    (hnot : target ∉ done) (hquiet : Quiet a f source target done) :
    Armed f e (Carried a f source target done target) pre := by
  have hclean := hreload.unclobbered
  by_cases hne : source = target
  · obtain ⟨l₁, l₂, he⟩ := List.append_of_mem (hsame hne)
    exact .inr ⟨l₁, l₂, he, clean_inside hf.consistent hclean htarget he⟩
  · have hentered := (clean_between hf.consistent hclean htarget hd hsource hdom hne (.refl hb)).1
    obtain ⟨l₁, l₂, he⟩ := List.append_of_mem hsource
    refine .inl ⟨⟨hne, hnot, hquiet, hentered⟩, fun j hj => ?_⟩
    exact clean_ends hf.consistent hclean htarget he hdom hne j (by simp [hj])

end Armed

namespace Touring

section Enter

variable {post : List InstId} (hd : a.Describes f rank) (hf : f.Valid) (hlayout : f.LaidOut)
  (hreload : f.Reload e x k) (hk : k ∈ eligible)
  (hunstored : ∀ k ∈ eligible, ∀ {c i}, i ∈ f.listOf c → ¬f.StoresTo i k)
  (hclobbers : ∀ c, c ∈ clobbers ↔ ∃ i ∈ f.listOf c, f.Clobbers i)
  (hsource : e ∈ f.listOf source)
include hd hf hlayout hreload hk hunstored hclobbers hsource

/-- What a block that is entered does to the address, if the source is on the path to the block. -/
theorem tracked {inner outer : List BlockId} (hb : f.Reached b) (hnew : b ∉ done)
    (hdoms : ∀ c, c ≠ b → f.Dom c b → c ∈ done) (hhead : path.head? = a.dom.idom? b)
    (hopen : ∀ c, c ∈ path ↔ c ≠ b ∧ f.Dom c b) (h : Touring a f x k source target pre done path s)
    (hpath : b :: path = inner ++ source :: outer) :
    ∃ s', visit a eligible clobbers s (.enter b) = .ok s' ∧
      Tracking f e x k (Carried a f source target done b) inner.length done path
        s.available.frames b s (f.listOf b) [] s' := by
  refine enter_tracked hf hlayout hreload hk hunstored (fun he => ?_) hd
    (fun c hc i hi hclobber => hc ((hclobbers c).mpr ⟨i, hi, hclobber⟩)) hb hnew hdoms hhead
    h.eliminated ?_
  · cases inner with
    | nil => rfl
    | cons b' inner =>
      have hmem : source ∈ path := by simp [(List.cons.inj hpath).2]
      exact absurd (hf.consistent.home_unique hsource he) ((hopen source).mp hmem).1
  · intro hcarried hkey
    obtain ⟨hne, hnot, hquiet, hentered⟩ := hcarried
    cases inner with
    | nil => exact absurd (List.cons.inj hpath).1.symm hne
    | cons b' inner =>
      have hside := sideClobbers_eq_false hd hentered fun c hc => (hclobbers c).mp hc
      exact (h.keeps hkey hnot hquiet inner outer (List.cons.inj hpath).2).opened hside

theorem enter (htarget : f.listOf target = pre ++ x :: post) (hdom : f.Dom source target)
    (hsame : source = target → e ∈ pre) (hb : f.Reached b) (hnew : b ∉ done)
    (hdoms : ∀ c, c ≠ b → f.Dom c b → c ∈ done) (hhead : path.head? = a.dom.idom? b)
    (hopen : ∀ c, c ∈ path ↔ c ≠ b ∧ f.Dom c b) (h : Touring a f x k source target pre done path s) :
    ∃ s', visit a eligible clobbers s (.enter b) = .ok s' ∧
      Touring a f x k source target pre (done ++ [b]) (b :: path) s' := by
  have hclean : ∀ c, c ∉ clobbers → ∀ i ∈ f.listOf c, ¬f.Clobbers i := fun c hc i hi hclobber =>
    hc ((hclobbers c).mpr ⟨i, hi, hclobber⟩)
  obtain ⟨s', hs', hel⟩ := visit_enter hd hf hlayout hunstored hclean hb hnew hdoms hhead
    h.eliminated
  have htrack : ∀ {inner outer}, b :: path = inner ++ source :: outer →
      Tracking f e x k (Carried a f source target done b) inner.length done path
        s.available.frames b s (f.listOf b) [] s' := by
    intro inner outer hpath
    obtain ⟨s'', hs'', hend⟩ := tracked hd hf hlayout hreload hk hunstored hclobbers hsource hb
      hnew hdoms hhead hopen h hpath
    obtain rfl := Except.ok.inj (hs'.symm.trans hs'')
    exact hend
  have hseen : (done ++ [b]).flatMap f.listOf = done.flatMap f.listOf ++ f.listOf b := by simp
  refine ⟨s', hs', hel, ?_, ?_⟩
  · intro hkey hnot hquiet inner outer hpath
    rw [hseen] at hkey
    simp only [List.mem_append, List.mem_singleton, not_or] at hnot
    have hsb : f.Dom source b := by
      by_cases hne : source = b
      · rw [hne]
        exact .refl hb
      · have hmem : source ∈ b :: path := by simp [hpath]
        exact ((hopen source).mp ((List.mem_cons.mp hmem).resolve_left hne)).2
    exact (htrack hpath).keeps hkey (armed_through hd hf hreload hsource htarget hdom hsb
      (fun hne => hdoms source hne hsb) (Ne.symm hnot.2) hnot.1 hquiet)
  · intro front back hdone hkey hquiet
    rcases cut_of_concat_eq hdone with ⟨rfl, rfl, rfl⟩ | ⟨back, -, rfl⟩
    · have hmem : source ∈ target :: path := by
        by_cases hne : source = target
        · simp [hne]
        · exact List.mem_cons_of_mem _ ((hopen source).mpr ⟨hne, hdom⟩)
      obtain ⟨inner, outer, hpath⟩ := List.append_of_mem hmem
      exact (htrack hpath).found pre post htarget hkey (armed_before hd hf hreload hsource htarget
        hdom hb hsame hnew hquiet)
    · -- whatever the block does to the address, it keeps the deletions that were made
      obtain ⟨s'', hs'', hidle⟩ : ∃ s'', visit a eligible clobbers s (.enter b) = .ok s'' ∧
          Tracking f e x k False 0 (front ++ target :: back) path s.available.frames b s
            (f.listOf b) [] s'' :=
        enter_tracked hf hlayout hreload hk hunstored (fun _ => rfl) hd hclean hb hnew hdoms hhead
          h.eliminated False.elim
      obtain rfl := Except.ok.inj (hs'.symm.trans hs'')
      have hbefore : front.flatMap f.listOf ++ pre ⊆ (front ++ target :: back).flatMap f.listOf := by
        simp [htarget]
      obtain ⟨e', he'⟩ := h.found front back rfl (hidle.kept hbefore hkey) hquiet
      exact ⟨e', hidle.grown he'⟩

end Enter

/-- An address whose base is not loaded from a computed address is left alone. -/
theorem keyKept {post : List InstId} (h : Touring a f x k source target pre done path s)
    (hf : f.Valid) (htarget : f.listOf target = pre ++ x :: post) (hbase : ¬f.LoadedBase k)
    (front : List BlockId) : KeyKept f s.progress.func (front.flatMap f.listOf ++ pre) k := by
  refine h.eliminated.ledger.keyKept h.eliminated.pruned hf hbase fun d hd => ?_
  rcases List.mem_append.mp hd with hd | hd
  · obtain ⟨c, -, hc⟩ := List.mem_flatMap.mp hd
    exact ⟨c, hc⟩
  · exact ⟨target, by simp [htarget, hd]⟩

theorem deleted {front back : List BlockId}
    (h : Touring a f x k source target pre (front ++ target :: back) path s)
    (hkey : KeyKept f s.progress.func (front.flatMap f.listOf ++ pre) k)
    (hquiet : Quiet a f source target front) : (∃ e', (x, e') ∈ s.progress.reuses) ∧
      ∃ z, s.progress.func.bare? x = some z ∧ z.erased = true := by
  obtain ⟨e', he'⟩ := h.found front back rfl hkey hquiet
  exact ⟨⟨e', he'⟩, (h.eliminated.ledger.reuse he').deleted⟩

end Touring

/-- The whole tour is made, with the address followed from the first load to the second. -/
theorem exists_touring_run {post : List InstId} {front back : List BlockId} (hbuilt : f.Built)
    (hdecl : f.isDeclaration = false) (hcheck : f.check = .ok ()) (hlayout : f.LaidOut)
    (ha : Analysis.ofFunc f = .ok a) (hreload : f.Reload e x k) (hsource : e ∈ f.listOf source)
    (htarget : f.listOf target = pre ++ x :: post) (havail : f.Avail target pre e)
    (htour : Dominators.entries a.dom.tour = front ++ target :: back) :
    ∃ s, run a f = .ok s.progress ∧
      Touring a f x k source target pre (front ++ target :: back) [] s ∧
      (¬f.LoadedBase k → KeyKept f s.progress.func (front.flatMap f.listOf ++ pre) k) := by
  have h₀ : 0 < f.numBlocks :=
    Nat.zero_lt_of_lt (lt_numBlocks_of_mem (by simp [htarget] : x ∈ f.listOf target))
  obtain ⟨rank, hd⟩ := Analysis.describes ha h₀
  have hf := hbuilt.consistent.valid hdecl h₀ hcheck
  have htied := hbuilt.consistent.tied hdecl hcheck
  have hlegible : f.Legible := hlayout.legible hf htied
  obtain ⟨eligible, heligible, hmem⟩ := eligibleAddresses_spec hlegible
  obtain ⟨clobbers, hclobbers, hmem'⟩ := clobberBlocks_spec hlegible
  have hreached : f.Reached target := hd.mem_entries_tour.mp (by simp [htour])
  obtain ⟨hdom, hsame⟩ := dom_of_avail hf.consistent hsource htarget hreached havail
  have hk : k ∈ eligible := by
    obtain ⟨d, hload, hknown, rfl⟩ := hreload.first
    obtain ⟨home, hhome⟩ := htied.placed hdom.reaches_left hsource
      (mem_reads_iff.mpr ⟨0, hload.operand⟩)
    exact (hmem _).mpr ⟨⟨home, d, hhome, hknown, rfl⟩, hreload.unstored⟩
  have hunstored : ∀ k ∈ eligible, ∀ {c i}, i ∈ f.listOf c → ¬f.StoresTo i k := fun k hk =>
    ((hmem k).mp hk).2
  obtain ⟨s, hs, hend⟩ := hd.foldlM_tour_open (P := Touring a f x k source target pre)
    (Touring.enter hd hf hlayout hreload hk hunstored hmem' hsource htarget hdom hsame)
    Touring.leave (Touring.start hf)
  refine ⟨s, ?_, htour ▸ hend, fun hbase => hend.keyKept hf htarget hbase front⟩
  have hfull : eligible.isEmpty = false := by
    rw [List.isEmpty_eq_false_iff]
    exact List.ne_nil_of_mem hk
  simp only [run, heligible, hclobbers, hfull, hs, bind, Except.bind]
  rfl

/-- **Elimination of loads finds repeated loads.** Take a function that was accepted, whose
instructions have the operands that they are built with, and a load in a reachable block that
repeats one before it or in a dominating block. All loads from the address are of one type, nothing
is stored to it, and no walk from the first load to the second leads past a clobber. Let no block
that the tour of the dominator tree enters between the blocks of the two have a clobber, or one
beside the way to it, unless the block dominates the second load. Then elimination of loads comes to
an end, and the second load is deleted in favour of another. If the base of the address is itself
loaded from a computed address, this asks in addition that the deletion of loads has left alone
which of the address computations in front of the second load have the operands of the address. -/
theorem run_deletes_reload {f : Func} (hbuilt : f.Built) (hdecl : f.isDeclaration = false)
    (hcheck : f.check = .ok ()) (hlayout : f.LaidOut) {a : Analysis}
    (ha : Analysis.ofFunc f = .ok a) {e x : InstId} {k : Address} {source target : BlockId}
    {pre post : List InstId} (hreload : f.Reload e x k) (hsource : e ∈ f.listOf source)
    (htarget : f.listOf target = pre ++ x :: post) (havail : f.Avail target pre e)
    {front back : List BlockId} (htour : Dominators.entries a.dom.tour = front ++ target :: back)
    (hquiet : Quiet a f source target front) :
    ∃ p, run a f = .ok p ∧
      ((f.LoadedBase k → KeyKept f p.func (front.flatMap f.listOf ++ pre) k) →
        (∃ e', (x, e') ∈ p.reuses) ∧ ∃ z, p.func.bare? x = some z ∧ z.erased = true) := by
  obtain ⟨s, hs, hend, hplain⟩ := exists_touring_run hbuilt hdecl hcheck hlayout ha hreload hsource
    htarget havail htour
  refine ⟨s.progress, hs, fun hkept => ?_⟩
  by_cases hbase : f.LoadedBase k
  · exact hend.deleted (hkept hbase) hquiet
  · exact hend.deleted (hplain hbase) hquiet

/-- **Repeated loads from an address whose base is no load are found.** This is the case in which
all that is asked can be read off the function as it was in the beginning. -/
theorem run_deletes_reload_of_plain_base {f : Func} (hbuilt : f.Built)
    (hdecl : f.isDeclaration = false) (hcheck : f.check = .ok ()) (hlayout : f.LaidOut)
    {a : Analysis} (ha : Analysis.ofFunc f = .ok a) {e x : InstId} {k : Address}
    {source target : BlockId} {pre post : List InstId} (hreload : f.Reload e x k)
    (hbase : ∀ i, .inst i ∈ k → f.op? i ≠ some .load) (hsource : e ∈ f.listOf source)
    (htarget : f.listOf target = pre ++ x :: post) (havail : f.Avail target pre e)
    {front back : List BlockId} (htour : Dominators.entries a.dom.tour = front ++ target :: back)
    (hquiet : Quiet a f source target front) :
    ∃ p, run a f = .ok p ∧ (∃ e', (x, e') ∈ p.reuses) ∧
      ∃ z, p.func.bare? x = some z ∧ z.erased = true := by
  obtain ⟨s, hs, hend, hplain⟩ := exists_touring_run hbuilt hdecl hcheck hlayout ha hreload hsource
    htarget havail htour
  refine ⟨s.progress, hs, hend.deleted (hplain fun hloaded => ?_) hquiet⟩
  obtain ⟨i, d, hi, hload⟩ := hloaded
  exact hbase i hi hload.load

end Loads

/-! ## Loads that are found and loads that are overlooked -/

namespace Func

variable {f : Func} {e x : InstId} {u v b : BlockId} {q : List BlockId}
  {before after : List InstId}

def isCall (f : Func) (i : InstId) : Bool :=
  match f.op? i with
  | some (.call _) => true
  | _ => false

/-- Nothing is stored, and control ends in a block that makes a call. -/
def CallsLast (f : Func) : Prop :=
  ∀ i ∈ f.placed, f.op? i ≠ some .store ∧
    (f.isCall i → ∀ c ∈ f.homeOf i, f.successors c = .ok [])

instance (f : Func) : Decidable f.CallsLast := inferInstanceAs (Decidable (∀ _ ∈ _, _))

namespace CallsLast

variable (hf : f.Consistent) (h : f.CallsLast)
include h

theorem not_store {i : InstId} (hi : i ∈ f.listOf b) : f.op? i ≠ some .store :=
  (h i (mem_placed_iff.mpr ⟨b, hi⟩)).1

theorem not_clobbers {i : InstId} (hi : i ∈ f.listOf b) (hcall : f.isCall i = false) :
    ¬f.Clobbers i := by
  rintro (⟨callee, hop⟩ | ⟨hop, -⟩)
  · simp [isCall, hop] at hcall
  · exact h.not_store hi hop

include hf

theorem not_edge {i : InstId} (hi : i ∈ f.listOf b) (hclobber : f.Clobbers i) : ¬f.Edge b v := by
  rcases hclobber with ⟨callee, hop⟩ | ⟨hop, -⟩
  · intro hedge
    obtain ⟨targets, htargets, hv⟩ := hedge
    have hsucc := (h i (mem_placed_iff.mpr ⟨b, hi⟩)).2 (by simp [isCall, hop]) b
      ((hf.mem_list b i).mp hi)
    obtain rfl := Except.ok.inj (hsucc.symm.trans htargets)
    cases hv
  · exact absurd hop (h.not_store hi)

/-- No walk makes a call and comes to another block later. -/
theorem not_clobbers_before {home : BlockId} (hx : x ∈ f.listOf home)
    (hhome : ∀ i ∈ f.listOf home, f.isCall i = false) (hq : Path f.Edge u v q)
    (hsplit : q.flatMap f.listOf = before ++ x :: after) : ∀ i ∈ before, ¬f.Clobbers i := by
  intro i hi hclobber
  obtain ⟨s, rfl⟩ := hq.exists_eq_concat
  have hs : i ∉ s.flatMap f.listOf := by
    intro hmem
    obtain ⟨c, hc, hic⟩ := List.mem_flatMap.mp hmem
    obtain ⟨z, hz⟩ := hq.exists_next rfl hc
    exact h.not_edge hf hic hclobber hz
  rw [List.flatMap_append, List.flatMap_singleton, List.append_eq_append_iff] at hsplit
  rcases hsplit with ⟨l, rfl, hv⟩ | ⟨l, hbefore, -⟩
  · obtain rfl : v = home := hf.home_unique (by simp [hv]) hx
    have hil : i ∈ l := (List.mem_append.mp hi).resolve_left hs
    have hiv : i ∈ f.listOf v := by simp [hv, hil]
    exact h.not_clobbers hiv (hhome i hiv) hclobber
  · exact hs (by simp [hbefore, hi])

theorem enteredClean {a : Analysis} : Loads.EnteredClean a f b := by
  intro d s _ hs _ c hc i hi hclobber
  obtain ⟨z, hz⟩ := hs.exists_next (List.cons_append ..).symm (List.mem_cons_of_mem _ hc)
  exact h.not_edge hf hi hclobber hz

/-- Two loads by one address computation repeat each other. -/
theorem reload (d : InstId) (home : BlockId) {base : Operand} {indices : List Operand}
    (hload : ∀ i ∈ [e, x], f.op? i = some .load ∧ f.slot ⟨i, 0⟩ = some (.inst d))
    (hd : f.op? d = some .elementPtr) (hoperands : f.operandsOf d = base :: indices)
    (hindices : ∀ o ∈ indices, o.isIntegerLit)
    (htype : ∀ i ∈ f.placed, ∀ d' ∈ f.reads i, f.op? i = some .load →
      f.operandsOf d' = base :: indices →
      (f.bare? i).map Instruction.ty = (f.bare? x).map Instruction.ty)
    (hhome : x ∈ f.listOf home) (hcall : ∀ i ∈ f.listOf home, f.isCall i = false) :
    f.Reload e x (base :: indices) where
  first := ⟨d, ⟨(hload e (by simp)).1, (hload e (by simp)).2, hd⟩,
    ⟨hd, base, indices, hoperands, hindices⟩, hoperands⟩
  second := ⟨d, ⟨(hload x (by simp)).1, (hload x (by simp)).2, hd⟩,
    ⟨hd, base, indices, hoperands, hindices⟩, hoperands⟩
  type hi hload hk :=
    htype _ (mem_placed_iff.mpr ⟨_, hi⟩) _ (mem_reads_iff.mpr ⟨0, hload.operand⟩) hload.load hk
  unstored hi hstores := h.not_store hi hstores.1
  unclobbered := by
    intro hbetween
    obtain ⟨u, v, q, before, middle, after, hq, hsplit, -, i, hi, hclobber⟩ := hbetween
    rw [← List.cons_append, ← List.append_assoc] at hsplit
    exact h.not_clobbers_before hf hhome hcall hq hsplit i (by simp [hi]) hclobber

end CallsLast

end Func

namespace Loads

open Func

/-- The load `x` repeats `e`, no walk leads past a clobber to it, and yet elimination of loads does
not delete it. -/
structure Overlooked (f : Func) (e x : InstId) (k : Address) : Prop where
  built : f.Built
  body : f.isDeclaration = false
  accepted : f.check = .ok ()
  layout : f.LaidOut
  reload : f.Reload e x k
  avail : ∃ b pre post, f.listOf b = pre ++ x :: post ∧ f.Avail b pre e
  clean : ∀ {u v q before after}, Path f.Edge u v q →
    q.flatMap f.listOf = before ++ x :: after → ∀ i ∈ before, ¬f.Clobbers i
  kept : ∃ a p, Analysis.ofFunc f = .ok a ∧ run a f = .ok p ∧
    ∃ z, p.func.bare? x = some z ∧ z.erased = false

/-- An element is loaded first and again in the arm of a branch. Of the other arms, the one before
or the one after makes a call. -/
def loadingArm (early : Bool) : Func := .made [.ptr, .i1] [
  .block, .block, .block, .block, .block,
  .switch ⟨0⟩, .elementPtr (.arg 0) [.lit (.i32 0)], .load .i32 (.inst ⟨0⟩),
  .branch (.arg 1) ⟨1⟩ ⟨2⟩,
  .switch ⟨2⟩, .branch (.arg 1) ⟨3⟩ ⟨4⟩,
  .switch (if early then ⟨1⟩ else ⟨4⟩), .call "touch" .void [], .ret (some (.inst ⟨1⟩)),
  .switch (if early then ⟨4⟩ else ⟨1⟩), .ret (some (.inst ⟨1⟩)),
  .switch ⟨3⟩, .load .i32 (.inst ⟨0⟩), .ret (some (.inst ⟨7⟩))]

/-- A pointer is loaded twice. An element is loaded twice by the second of the two. -/
def reloadedPointer : Func := .made [.ptr] [
  .block, .switch ⟨0⟩, .elementPtr (.arg 0) [.lit (.i32 0)], .load .ptr (.inst ⟨0⟩),
  .load .ptr (.inst ⟨0⟩), .elementPtr (.inst ⟨2⟩) [.lit (.i32 0)], .load .i32 (.inst ⟨3⟩),
  .load .i32 (.inst ⟨3⟩), .ret (some (.inst ⟨5⟩))]

/-- An element is loaded twice in a block that is not reached. -/
def strandedReload : Func := .made [.ptr] [
  .block, .block, .switch ⟨0⟩, .ret (some (.lit (.i32 0))),
  .switch ⟨1⟩, .elementPtr (.arg 0) [.lit (.i32 0)], .load .i32 (.inst ⟨1⟩),
  .load .i32 (.inst ⟨1⟩), .ret (some (.inst ⟨3⟩))]

theorem Overlooked.of_reload {f : Func} {e x : InstId} {k : Address} {home : BlockId}
    {pre post : List InstId} (hbuilt : f.Built) (hbody : f.isDeclaration = false)
    (hcheck : f.check = .ok ()) (hlayout : f.LaidOut) (hcalls : f.CallsLast)
    (hreload : f.Reload e x k) (hlist : f.listOf home = pre ++ x :: post)
    (havail : f.Avail home pre e) (hcall : ∀ i ∈ f.listOf home, f.isCall i = false)
    (hkept : (Analysis.ofFunc f).toOption.any (fun a => (run a f).toOption.any
      fun p => (p.func.bare? x).map Instruction.erased = some false) = true) :
    Overlooked f e x k where
  built := hbuilt
  body := hbody
  accepted := hcheck
  layout := hlayout
  reload := hreload
  avail := ⟨home, pre, post, hlist, havail⟩
  clean := hcalls.not_clobbers_before hbuilt.consistent (by simp [hlist]) hcall
  kept := by
    obtain ⟨a, ha, h⟩ := exists_ok_of_any hkept
    obtain ⟨p, hp, h⟩ := exists_ok_of_any h
    exact ⟨a, p, ha, hp, Option.map_eq_some_iff.mp (of_decide_eq_true h)⟩

section LoadingArm

variable (early : Bool)

theorem loadingArm_callsLast : (loadingArm early).CallsLast := by
  cases early <;> decide

theorem loadingArm_reached : (loadingArm early).Reached ⟨3⟩ := by
  have houter : (loadingArm early).Edge .entry ⟨2⟩ :=
    ⟨[⟨1⟩, ⟨2⟩], by cases early <;> decide, by simp⟩
  have hinner : (loadingArm early).Edge ⟨2⟩ ⟨3⟩ :=
    ⟨[⟨3⟩, ⟨4⟩], by cases early <;> decide, by simp⟩
  exact (Reaches.refl.step houter).step hinner

theorem loadingArm_avail : (loadingArm early).Avail ⟨3⟩ [] ⟨1⟩ :=
  .inr ⟨.entry, by cases early <;> decide, by decide,
    .root_dominates (loadingArm_reached early)⟩

theorem loadingArm_reload :
    (loadingArm early).Reload ⟨1⟩ ⟨7⟩ [.arg 0, .lit (.i32 0)] := by
  refine (loadingArm_callsLast early).reload (built_made _ _).consistent ⟨0⟩ ⟨3⟩ ?_ ?_ ?_
    (by decide) ?_ ?_ ?_ <;> cases early <;> decide

end LoadingArm

theorem strandedReload_overlooked :
    Overlooked strandedReload ⟨2⟩ ⟨3⟩ [.arg 0, .lit (.i32 0)] := by
  have hcalls : strandedReload.CallsLast := by decide
  have hlist : strandedReload.listOf ⟨1⟩ = [⟨1⟩, ⟨2⟩] ++ ⟨3⟩ :: [⟨4⟩] := by decide
  refine .of_reload (built_made _ _) (by decide) (by decide) (by decide)
    hcalls ?_ hlist (.inl (by simp)) (by decide) (by decide)
  refine hcalls.reload (built_made _ _).consistent ⟨1⟩ ⟨1⟩ ?_ ?_ ?_ (by decide) ?_ ?_ ?_ <;>
    decide

/-- The first load of the pointer replaces the second, and the element has another address then. -/
theorem reloadedPointer_overlooked :
    Overlooked reloadedPointer ⟨4⟩ ⟨5⟩ [.inst ⟨2⟩, .lit (.i32 0)] := by
  have hcalls : reloadedPointer.CallsLast := by decide
  have hlist : reloadedPointer.listOf ⟨0⟩ = [⟨0⟩, ⟨1⟩, ⟨2⟩, ⟨3⟩, ⟨4⟩] ++ ⟨5⟩ :: [⟨6⟩] := by
    decide
  refine .of_reload (built_made _ _) (by decide) (by decide) (by decide)
    hcalls ?_ hlist (.inl (by simp)) (by decide) (by decide)
  refine hcalls.reload (built_made _ _).consistent ⟨3⟩ ⟨0⟩ ?_ ?_ ?_ (by decide) ?_ ?_ ?_ <;>
    decide

/-- A repeated load is overlooked after a call in an arm before, in a block that is not reached, and
by an address that changes when another load is deleted. -/
theorem repeated_loads_overlooked :
    Overlooked (loadingArm true) ⟨1⟩ ⟨7⟩ [.arg 0, .lit (.i32 0)] ∧
      Overlooked strandedReload ⟨2⟩ ⟨3⟩ [.arg 0, .lit (.i32 0)] ∧
      Overlooked reloadedPointer ⟨4⟩ ⟨5⟩ [.inst ⟨2⟩, .lit (.i32 0)] := by
  refine ⟨?_, strandedReload_overlooked, reloadedPointer_overlooked⟩
  have hlist : (loadingArm true).listOf ⟨3⟩ = [] ++ ⟨7⟩ :: [⟨8⟩] := by decide +kernel
  exact .of_reload (built_made _ _) (by decide +kernel) (by decide +kernel) (by decide +kernel)
    (loadingArm_callsLast true) (loadingArm_reload true) hlist (loadingArm_avail true)
    (by decide +kernel) (by decide +kernel)

theorem loadingArm_quiet {a : Analysis} : Quiet a (loadingArm false) ⟨0⟩ ⟨3⟩ [⟨0⟩, ⟨1⟩, ⟨2⟩] := by
  have hcalls := loadingArm_callsLast false
  have hlists : ∀ c ∈ [⟨0⟩, ⟨1⟩, ⟨2⟩], ∀ i ∈ (loadingArm false).listOf c,
      (loadingArm false).isCall i = false := by decide
  intro front mid hdone c hc _
  refine ⟨hcalls.enteredClean (built_made _ _).consistent, fun i hi => ?_⟩
  exact hcalls.not_clobbers hi (hlists c (by simp [hdone, hc]) i hi)

/-- The load in the arm is deleted if the call is made after it. -/
theorem run_deletes_reload_loadingArm :
    ∃ a p, Analysis.ofFunc (loadingArm false) = .ok a ∧ run a (loadingArm false) = .ok p ∧
      Dominators.entries a.dom.tour = [⟨0⟩, ⟨1⟩, ⟨2⟩] ++ ⟨3⟩ :: [⟨4⟩] ∧
      ∃ z, p.func.bare? ⟨7⟩ = some z ∧ z.erased = true := by
  obtain ⟨a, ha, htour⟩ := exists_ok_of_any (x := Analysis.ofFunc (loadingArm false))
    (q := fun a => Dominators.entries a.dom.tour = [⟨0⟩, ⟨1⟩, ⟨2⟩] ++ ⟨3⟩ :: [⟨4⟩])
    (by decide +kernel)
  have htour := of_decide_eq_true htour
  have hbuilt : (loadingArm false).Built := built_made _ _
  have hsource : ⟨1⟩ ∈ (loadingArm false).listOf ⟨0⟩ := by decide +kernel
  have htarget : (loadingArm false).listOf ⟨3⟩ = [] ++ ⟨7⟩ :: [⟨8⟩] := by decide +kernel
  obtain ⟨p, hp, hdeleted⟩ := run_deletes_reload hbuilt (by decide +kernel) (by decide +kernel)
    (by decide +kernel) ha (loadingArm_reload false) hsource htarget (loadingArm_avail false) htour
    loadingArm_quiet
  -- the base of the address is an argument
  refine ⟨a, p, ha, hp, htour, (hdeleted fun hbase => ?_).2⟩
  obtain ⟨i, d, hmem, -⟩ := hbase
  simp at hmem

end Loads

end SsaOpt
