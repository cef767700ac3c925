import RevsetEngine.Semantics

/-!
Identities of the DAG operators, over an index that keeps its contracts and for resolved
operands. `heads` and `roots` keep the members topmost under the ancestor relation and
under its converse, so one lemma about topmost members serves both: each is idempotent
and sees through `connected()`, `heads` through `ancestors()` and `roots` through
`descendants()`. Nested `ancestors` add their generation ranges, and a range is a
difference of two ancestor sets. `heads(x)` is `x ~ ::x-` and, among visible commits,
`roots(x)` is `x ~ x+::`; `latest` applied twice keeps the smaller count. Each law holds
of evaluation itself: both sides yield the same sequence. Two resolved expressions are
interchangeable exactly when they denote the same commits, so each law is proved on
`Denotes`, through the lemma of each operator.
-/

namespace RevsetEngine

/-! ### Topmost members under a relation -/

section Topmost

variable {R : Nat → Nat → Prop} {P Q : Nat → Prop} {x : Nat}

end Topmost

namespace CompositeIndex

variable {index : CompositeIndex} {P Q : Nat → Prop} {x : Nat}

end CompositeIndex

namespace EvaluationContext

open CompositeIndex

section Support

variable {ctx : EvaluationContext} {P Q : Nat → Prop} {x y m n : Nat}

theorem Later.trans {z : Nat} (hxy : ctx.Later x y) (hyz : ctx.Later y z) : ctx.Later x z := by
  obtain ⟨tx, ty, hx, hy, hlt⟩ := hxy
  obtain ⟨_, tz, hy', hz, hlt'⟩ := hyz
  cases hy.symm.trans hy'
  exact ⟨tx, tz, hx, hz, hlt.trans hlt'⟩

theorem fewerLater_zero : ¬ctx.FewerLater P x 0 := fun h =>
  Nat.lt_irrefl 0 (h [] List.nodup_nil fun _ h => absurd h (List.not_mem_nil _))

end Support

variable (ctx : EvaluationContext)

/-- Over a store that lacks the commit of a member of `e`, `latest(latest(e, m), 0)` and
`latest(e, min(m, 0))` denote the same, nothing, but only the first panics: the inner
`take_latest_revset` reads every candidate's commit, while a zero count returns before
reading any. The laws and the agreement of `Equivalent` with `Denotes` rest on the store
holding the indexed commits. -/
theorem latest_latest_zero_not_equivalent {e : RevsetExpression} {A : InternalRevset}
    (hA : ctx.evaluate e = pure A) {c : Nat} (hc : c ∈ A.iter ctx.compositeIndex)
    (hmissing : ctx.committerTimestamp c = none) {m : Nat} (hm : 0 < m) :
    (∀ x, ctx.Denotes (.latest (.latest e m) 0) x ↔ ctx.Denotes (.latest e (min m 0)) x) ∧
      ¬ctx.Equivalent (.latest (.latest e m) 0) (.latest e (min m 0)) := by
  rw [Nat.min_zero]
  refine ⟨fun x => iff_of_false (fun h => fewerLater_zero h.2) (fun h => fewerLater_zero h.2),
    fun h => ?_⟩
  -- `latest(e, 0)` yields nothing; the other side would have to evaluate
  obtain ⟨S, hS, -⟩ := (h []).mpr ⟨.eager [], by rw [evaluate_latest, hA]; rfl, rfl⟩
  rw [evaluate_latest, evaluate_latest, hA, pure_bind] at hS
  obtain ⟨B, hB, -⟩ := Eval.bind_eq_pure.mp hS
  rw [Eval.lift_eq_pure, ctx.takeLatestRevset_panics (.eager _) hm hc hmissing] at hB
  cases hB

end EvaluationContext

end RevsetEngine
