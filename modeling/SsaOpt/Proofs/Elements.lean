import SsaOpt.Proofs.Literals
import SsaOpt.Proofs.Stores

/-! Elements of arrays, and stores to them between a load and the load that takes its place.

An element is a base and the integers that index it. Addresses are compared by their operands, and
literals of different types are different operands even if they denote the same integer. So one
element can have several addresses, and a load can be reused across a store to its own element that
goes by another address. Where the indices have the same types there is only one. -/

namespace SsaOpt

namespace Address

/-- Both addresses have the same base and, in the same places, literals of the same integers. -/
def SameElement (k k' : Address) : Prop :=
  ∃ base indices indices', k = base :: indices ∧ k' = base :: indices' ∧
    List.Forall₂ (fun o o' => ∃ n, o.toInt? = some n ∧ o'.toInt? = some n) indices indices'

/-- The types of the indices, in order. -/
def indexTypes (k : Address) : List (Option Ty) := k.tail.map Operand.litTy?

/-- With indices of given types, an element has one address. -/
theorem SameElement.eq_of_indexTypes_eq {k k' : Address} (h : SameElement k k')
    (hty : indexTypes k = indexTypes k') : k = k' := by
  obtain ⟨base, indices, indices', rfl, rfl, hindices⟩ := h
  refine congrArg _ ?_
  unfold indexTypes at hty
  induction hindices with
  | nil => rfl
  | cons hint _ ih =>
    obtain ⟨n, ho, ho'⟩ := hint
    obtain ⟨hhead, htail⟩ := List.cons.inj hty
    rw [Operand.eq_of_toInt?_eq ho ho' hhead, ih htail]

end Address

namespace Loads

open Func Address

/-- **Elimination of loads and stores to the same element.** Take a function that was accepted,
whose instructions have the operands that they are built with. Let a load be deleted in favour of
another, and let some walk from an execution of the other to the deleted load store to the element
that the load reads. Then the store goes by indices of other types. This is so for the element as it
is addressed in the end, and also as it was addressed in the beginning, unless the computation of
its address reads a load that was deleted as well. The walk and the addresses of its stores are those
of the function as it was in the beginning in both parts; it is only the address of the load that the
first part reads in the result. -/
theorem run_reuses_across_other_types {f : Func} (hbuilt : f.Built)
    (hdecl : f.isDeclaration = false) (hcheck : f.check = .ok ()) (hlayout : f.LaidOut)
    {a : Analysis} (ha : Analysis.ofFunc f = .ok a) :
    ∃ p, run a f = .ok p ∧ ∀ {x e d k}, (x, e) ∈ p.reuses → f.LoadsFrom x d →
      f.StoredBetween e x k →
        (SameElement (p.func.operandsOf d) k → indexTypes (p.func.operandsOf d) ≠ indexTypes k) ∧
        (SameElement (f.operandsOf d) k → (∀ y ∈ f.reads d, ∀ e', (y, e') ∉ p.reuses) →
          indexTypes (f.operandsOf d) ≠ indexTypes k) := by
  by_cases h₀ : 0 < f.numBlocks
  · obtain ⟨rank, hd⟩ := Analysis.describes ha h₀
    have hf := hbuilt.consistent.valid hdecl h₀ hcheck
    have htied := hbuilt.consistent.tied hdecl hcheck
    obtain ⟨p, seen, table, hp, hpr, hledger⟩ := exists_run hd hf htied hlayout
    refine ⟨p, hp, fun {x e d k} hxe hload hstored => ⟨fun hsame hty => ?_,
      fun hsame hbase hty => ?_⟩⟩
    · rw [← hsame.eq_of_indexTypes_eq hty] at hstored
      exact hledger.not_storedBetween hxe hload hstored
    · rw [← hsame.eq_of_indexTypes_eq hty] at hstored
      exact hledger.not_storedBetween_first hpr htied hxe hload hbase hstored
  · exact ⟨_, run_of_no_blocks h₀, fun hxe => absurd hxe List.not_mem_nil⟩

/-- The first element of an array is loaded twice, and in between something is stored to the element
at `index`. -/
def storedElement (index : Literal) : Func := .made [.ptr] [
  .block, .switch ⟨0⟩,
  .elementPtr (.arg 0) [.lit (.i32 0)], .elementPtr (.arg 0) [.lit index],
  .load .i32 (.inst ⟨0⟩), .store (.lit (.i32 5)) (.inst ⟨1⟩), .load .i32 (.inst ⟨0⟩),
  .ret (some (.inst ⟨4⟩))]

/-- An index that denotes zero is that of the element that is loaded, whatever its type. The block
runs from top to bottom, and the second load is deleted. -/
theorem exists_run_storedElement {l : Literal} (hl : l ∈ [.i1 false, .i64 0]) :
    (storedElement l).isDeclaration = false ∧ (storedElement l).check = .ok () ∧
      (storedElement l).LaidOut ∧ (storedElement l).LoadsFrom ⟨2⟩ ⟨0⟩ ∧
      (storedElement l).LoadsFrom ⟨4⟩ ⟨0⟩ ∧
      (storedElement l).operandsOf ⟨0⟩ = [.arg 0, .lit (.i32 0)] ∧
      SameElement ((storedElement l).operandsOf ⟨0⟩) [.arg 0, .lit l] ∧
      (storedElement l).StoredBetween ⟨2⟩ ⟨4⟩ [.arg 0, .lit l] ∧
      ∃ a p, Analysis.ofFunc (storedElement l) = .ok a ∧ run a (storedElement l) = .ok p ∧
        p.reuses = [(⟨4⟩, ⟨2⟩)] := by
  have hfacts : ∀ l ∈ [Literal.i1 false, .i64 0],
      (storedElement l).isDeclaration = false ∧ (storedElement l).check = .ok () ∧
      (storedElement l).LaidOut ∧
      (storedElement l).listOf ⟨0⟩ = [⟨0⟩, ⟨1⟩, ⟨2⟩, ⟨3⟩, ⟨4⟩, ⟨5⟩] ∧
      [⟨0⟩, ⟨1⟩, ⟨2⟩, ⟨3⟩, ⟨4⟩].map (storedElement l).op? =
        [some .elementPtr, some .elementPtr, some .load, some .store, some .load] ∧
      [⟨0⟩, ⟨1⟩, ⟨2⟩, ⟨3⟩, ⟨4⟩].map (storedElement l).operandsOf =
        [[.arg 0, .lit (.i32 0)], [.arg 0, .lit l], [.inst ⟨0⟩],
          [.lit (.i32 5), .inst ⟨1⟩], [.inst ⟨0⟩]] ∧
      l.toInt? = some 0 ∧
      (Analysis.ofFunc (storedElement l)).toOption.any fun a =>
        (run a (storedElement l)).toOption.any fun p : Progress =>
          p.reuses = [(⟨4⟩, ⟨2⟩)] := by
    decide
  obtain ⟨hdecl, hcheck, hlayout, hlist, hops, hoperands, hzero, h⟩ := hfacts l hl
  simp only [List.map_cons, List.map_nil, List.cons.injEq, and_true] at hops hoperands
  obtain ⟨hop₀, hop₁, hop₂, hop₃, hop₄⟩ := hops
  obtain ⟨hloaded, hother, hfirst, hstore, hsecond⟩ := hoperands
  obtain ⟨a, ha, h⟩ := exists_ok_of_any h
  obtain ⟨p, hp, hreuses⟩ := exists_ok_of_any h
  refine ⟨hdecl, hcheck, hlayout, ⟨hop₂, by rw [slot, hfirst]; rfl, hop₀⟩,
    ⟨hop₄, by rw [slot, hsecond]; rfl, hop₀⟩, hloaded,
    ⟨.arg 0, _, _, hloaded, rfl, .cons ⟨0, rfl, hzero⟩ .nil⟩, ?_,
    a, p, ha, hp, of_decide_eq_true hreuses⟩
  refine ⟨⟨0⟩, ⟨0⟩, [⟨0⟩], [⟨0⟩, ⟨1⟩], [⟨3⟩], [⟨5⟩], .start, ?_, by decide, ⟨3⟩, by decide, hop₃,
    ⟨1⟩, by rw [slot, hstore]; rfl, hop₁, hother⟩
  rw [List.flatMap_singleton, hlist]
  rfl

/-- The second load is deleted although the store is to the element that it reads. The index of the
store is a truth value. -/
theorem run_reuses_across_other_types_storedElement : ∃ a p,
    Analysis.ofFunc (storedElement (.i1 false)) = .ok a ∧
    run a (storedElement (.i1 false)) = .ok p ∧ p.reuses = [(⟨4⟩, ⟨2⟩)] ∧
    (storedElement (.i1 false)).StoredBetween ⟨2⟩ ⟨4⟩ [.arg 0, .lit (.i1 false)] ∧
    SameElement ((storedElement (.i1 false)).operandsOf ⟨0⟩) [.arg 0, .lit (.i1 false)] ∧
    indexTypes ((storedElement (.i1 false)).operandsOf ⟨0⟩) ≠
      indexTypes [.arg 0, .lit (.i1 false)] := by
  obtain ⟨hdecl, hcheck, hlayout, -, hload, hloaded, hsame, hstored, a, q, ha, hq, hreuses⟩ :=
    exists_run_storedElement (l := .i1 false) (by decide)
  obtain ⟨p, hp, htypes⟩ := run_reuses_across_other_types (f := storedElement (.i1 false))
    (built_made _ _) hdecl hcheck hlayout ha
  obtain rfl := Except.ok.inj (hq.symm.trans hp)
  refine ⟨a, q, ha, hq, hreuses, hstored, hsame, ?_⟩
  refine (htypes (by simp [hreuses]) hload hstored).2 hsame fun y hread => ?_
  -- the base is an argument
  rw [reads_eq, hloaded] at hread
  cases hread

/-- Indices of 32 and of 64 bits, both of them zero. -/
theorem storedElement_reused_across_store :
    (storedElement (.i64 0)).Built ∧ (storedElement (.i64 0)).isDeclaration = false ∧
      (storedElement (.i64 0)).check = .ok () ∧ (storedElement (.i64 0)).LaidOut ∧
      (storedElement (.i64 0)).LoadsFrom ⟨2⟩ ⟨0⟩ ∧ (storedElement (.i64 0)).LoadsFrom ⟨4⟩ ⟨0⟩ ∧
      (storedElement (.i64 0)).operandsOf ⟨0⟩ = [.arg 0, .lit (.i32 0)] ∧
      SameElement ((storedElement (.i64 0)).operandsOf ⟨0⟩) [.arg 0, .lit (.i64 0)] ∧
      (storedElement (.i64 0)).StoredBetween ⟨2⟩ ⟨4⟩ [.arg 0, .lit (.i64 0)] ∧
      ∃ a p, Analysis.ofFunc (storedElement (.i64 0)) = .ok a ∧
        run a (storedElement (.i64 0)) = .ok p ∧ p.reuses = [(⟨4⟩, ⟨2⟩)] :=
  ⟨built_made _ _, exists_run_storedElement (by decide)⟩

end Loads

end SsaOpt
