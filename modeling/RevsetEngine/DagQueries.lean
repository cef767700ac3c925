import RevsetEngine.Evaluation

/-!
The DAG queries `DagRange` and `Roots`. Over an index whose parents lie below their
children, and whose walker enumerates the ancestors of the heads it is given, the
ascending sweep of `DagRange` is the descendant closure of the roots within the
ancestors of the heads, and the parent test of `Roots` finds the members of no proper
ancestor in the set. `Children` restricts its candidates to the descendants of its roots
and loses no child by it, whatever the order of the index.
-/

namespace RevsetEngine

namespace CompositeIndex

variable {index : CompositeIndex}

theorem IsAncestor.le (hbelow : index.ParentsBelow) {a c : Nat} (h : index.IsAncestor a c) :
    a ≤ c := by
  induction h with
  | refl => exact le_rfl
  | tail _ hp ih => exact ih.trans (hbelow _ _ hp).le

theorem chainIndex_parentsBelow : chainIndex.ParentsBelow := fun c p hp => by
  simp only [chainIndex] at hp
  split at hp
  · simp at hp
  · simp only [List.mem_singleton] at hp
    omega

theorem chainIndex_isAncestor_iff {a c : Nat} : chainIndex.IsAncestor a c ↔ a ≤ c := by
  refine ⟨IsAncestor.le chainIndex_parentsBelow, fun h => ?_⟩
  induction c, h using Nat.le_induction with
  | base => exact .refl
  | succ c _ ih => exact ih.tail (by simp [chainIndex])

end CompositeIndex

namespace EvaluationContext

variable (ctx : EvaluationContext)

open CompositeIndex

/-- The members of a `DagRange`: ancestors-or-self of a head that descend from a root. -/
theorem mem_evaluate_dagRange (hw : ctx.compositeIndex.WalksDescending)
    (hbelow : ctx.compositeIndex.ParentsBelow) {roots heads : RevsetExpression}
    (hancestors : ∀ {H A : InternalRevset}, ctx.evaluate heads = pure H →
      ctx.evaluate heads.ancestorsFull = pure A → ∀ x, x ∈ A.iter ctx.compositeIndex ↔
        ∃ h ∈ H.iter ctx.compositeIndex, ctx.compositeIndex.IsAncestor x h)
    {R H S : InternalRevset} (hR : ctx.evaluate roots = pure R)
    (hH : ctx.evaluate heads = pure H) (hS : ctx.evaluate (.dagRange roots heads) = pure S)
    (x : Nat) :
    x ∈ S.iter ctx.compositeIndex ↔
      (∃ h ∈ H.iter ctx.compositeIndex, ctx.compositeIndex.IsAncestor x h) ∧
        ∃ r ∈ R.iter ctx.compositeIndex, ctx.compositeIndex.IsAncestor r x := by
  rw [evaluate] at hS
  obtain ⟨R', A, hR', hA, rfl⟩ := Eval.bind_bind_pure_eq_pure.mp hS
  cases Eval.pure_inj.mp (hR.symm.trans hR')
  have hmem := hancestors hH hA
  have hclosed : ∀ c ∈ A.iter ctx.compositeIndex, ∀ p ∈ ctx.compositeIndex.parentPositions c,
      p ∈ A.iter ctx.compositeIndex := fun c hc p hp => by
    obtain ⟨h, hh, hch⟩ := (hmem c).mp hc
    exact (hmem p).mpr ⟨h, hh, hch.head hp⟩
  rw [InternalRevset.iter, mem_dagRangeSweep _ _ hbelow
    ((ctx.evaluate_wellFormed hw _ hA).sorted _) hclosed, hmem]
  rfl

/-- `DagRange` yields, in strictly descending order, exactly the ancestors-or-self of the
heads that descend from a root; roots outside the ancestors of the heads add nothing. -/
theorem evaluate_dagRange_members (hw : ctx.compositeIndex.WalksDescending)
    (hbelow : ctx.compositeIndex.ParentsBelow) {roots heads : RevsetExpression}
    (hancestors : ∀ {H A : InternalRevset}, ctx.evaluate heads = pure H →
      ctx.evaluate heads.ancestorsFull = pure A → ∀ x, x ∈ A.iter ctx.compositeIndex ↔
        ∃ h ∈ H.iter ctx.compositeIndex, ctx.compositeIndex.IsAncestor x h)
    {R H S : InternalRevset} (hR : ctx.evaluate roots = pure R)
    (hH : ctx.evaluate heads = pure H) (hS : ctx.evaluate (.dagRange roots heads) = pure S) :
    (S.iter ctx.compositeIndex).Sorted (· > ·) ∧
      ∀ x, x ∈ S.iter ctx.compositeIndex ↔
        (∃ h ∈ H.iter ctx.compositeIndex, ctx.compositeIndex.IsAncestor x h) ∧
          ∃ r ∈ R.iter ctx.compositeIndex, ctx.compositeIndex.IsAncestor r x :=
  ⟨(ctx.evaluate_wellFormed hw _ hS).sorted _,
    ctx.mem_evaluate_dagRange hw hbelow hancestors hR hH hS⟩

theorem chainContext_ancestors_three {H A : InternalRevset}
    (hH : chainContext.evaluate (.commits [[3]]) = pure H)
    (hA : chainContext.evaluate (RevsetExpression.commits [[3]]).ancestorsFull = pure A) (x : Nat) :
    x ∈ A.iter chainContext.compositeIndex ↔
      ∃ h ∈ H.iter chainContext.compositeIndex, chainContext.compositeIndex.IsAncestor x h := by
  rw [chainContext_evaluate_commits 3 (by decide), Eval.pure_inj] at hH
  simp only [RevsetExpression.ancestorsFull, evaluate,
    chainContext_revsetForCommitIds 3 (by decide)] at hA
  cases Eval.pure_inj.mp hA
  subst hH
  simp only [InternalRevset.iter, List.mem_singleton, exists_eq_left]
  rw [show chainContext.compositeIndex = chainIndex from rfl, chainIndex_isAncestor_iff]
  have h3 : ((3 : Fin 256) : Nat) = 3 := rfl
  simp [chainIndex, Fin.ofNat, h3]
  omega

theorem evaluate_dagRange_members_chain :
    chainContext.compositeIndex.WalksDescending ∧ chainContext.compositeIndex.ParentsBelow ∧
    (∀ {H A : InternalRevset}, chainContext.evaluate (.commits [[3]]) = pure H →
      chainContext.evaluate (RevsetExpression.commits [[3]]).ancestorsFull = pure A →
      ∀ x, x ∈ A.iter chainContext.compositeIndex ↔
        ∃ h ∈ H.iter chainContext.compositeIndex, chainContext.compositeIndex.IsAncestor x h) ∧
    chainContext.evaluate (.commits [[1]]) = pure (.eager [1]) ∧
    chainContext.evaluate (.commits [[3]]) = pure (.eager [3]) ∧
    chainContext.evaluate (.dagRange (.commits [[1]]) (.commits [[3]])) =
      pure (.eager [3, 2, 1]) ∧
    ((InternalRevset.eager [3, 2, 1]).iter chainContext.compositeIndex).Sorted (· > ·) ∧
    ∀ x, x ∈ (InternalRevset.eager [3, 2, 1]).iter chainContext.compositeIndex ↔
      (∃ h ∈ (InternalRevset.eager [3]).iter chainContext.compositeIndex,
        chainContext.compositeIndex.IsAncestor x h) ∧
      ∃ r ∈ (InternalRevset.eager [1]).iter chainContext.compositeIndex,
        chainContext.compositeIndex.IsAncestor r x :=
  have hS : chainContext.evaluate (.dagRange (.commits [[1]]) (.commits [[3]])) =
      pure (.eager [3, 2, 1]) := by
    simp only [RevsetExpression.ancestorsFull, evaluate,
      chainContext_revsetForCommitIds 3 (by decide), chainContext_revsetForCommitIds 1 (by decide)]
    rfl
  ⟨chainIndex_walksDescending, chainIndex_parentsBelow, (chainContext_ancestors_three · ·),
    chainContext_evaluate_commits 1 (by decide), chainContext_evaluate_commits 3 (by decide), hS,
    evaluate_dagRange_members chainContext chainIndex_walksDescending chainIndex_parentsBelow
      (chainContext_ancestors_three · ·) (chainContext_evaluate_commits 1 (by decide))
      (chainContext_evaluate_commits 3 (by decide)) hS⟩

/-- `Roots` keeps exactly the members of which no other member is an ancestor: a parent
of `c` lies in the connected closure exactly when some other member reaches `c`. -/
theorem evaluate_roots_members (hw : ctx.compositeIndex.WalksDescending)
    (hbelow : ctx.compositeIndex.ParentsBelow) {x : RevsetExpression}
    (hancestors : ∀ {X A : InternalRevset}, ctx.evaluate x = pure X →
      ctx.evaluate x.ancestorsFull = pure A → ∀ c, c ∈ A.iter ctx.compositeIndex ↔
        ∃ h ∈ X.iter ctx.compositeIndex, ctx.compositeIndex.IsAncestor c h)
    {X S : InternalRevset} (hX : ctx.evaluate x = pure X)
    (hS : ctx.evaluate (.roots x) = pure S) :
    (S.iter ctx.compositeIndex).Sorted (· > ·) ∧
      ∀ c, c ∈ S.iter ctx.compositeIndex ↔ c ∈ X.iter ctx.compositeIndex ∧
        ¬∃ m ∈ X.iter ctx.compositeIndex, m ≠ c ∧ ctx.compositeIndex.IsAncestor m c := by
  refine ⟨(ctx.evaluate_wellFormed hw _ hS).sorted _, fun c => ?_⟩
  have hS' := hS
  rw [evaluate] at hS'
  obtain ⟨C, X', hC, hX', rfl⟩ := Eval.bind_bind_pure_eq_pure.mp hS'
  cases Eval.pure_inj.mp (hX.symm.trans hX')
  have hmem := ctx.mem_evaluate_dagRange hw hbelow hancestors hX hX hC
  simp only [InternalRevset.iter, List.mem_filter, Bool.not_eq_true', List.any_eq_false,
    decide_eq_true_eq, and_congr_right_iff]
  intro hc
  constructor
  · rintro hnone ⟨m, hm, hne, hmc⟩
    rcases Relation.ReflTransGen.cases_tail hmc with rfl | ⟨p, hmp, hp⟩
    · exact hne rfl
    · exact hnone p hp ((hmem p).mpr ⟨⟨c, hc, .single hp⟩, m, hm, hmp⟩)
  · intro hnone p hp hpC
    obtain ⟨-, r, hr, hrp⟩ := (hmem p).mp hpC
    have hrc : r < c := lt_of_le_of_lt (hrp.le hbelow) (hbelow c p hp)
    exact hnone ⟨r, hr, hrc.ne, hrp.tail hp⟩

theorem chainContext_revsetForCommitIds_three_one :
    chainContext.revsetForCommitIds [[3], [1]] = some (.eager [3, 1]) := by
  have hsort : ([3, 1] : List Nat).mergeSort (fun a b => decide (b ≤ a)) = [3, 1] :=
    List.mergeSort_of_sorted (by decide)
  have hmap : [[(3 : Fin 256)], [1]].mapM chainContext.compositeIndex.entryById = some [3, 1] :=
    rfl
  simp only [revsetForCommitIds, hmap, Option.bind_eq_bind, Option.some_bind, hsort]
  rfl

theorem chainContext_evaluate_three_one :
    chainContext.evaluate (.commits [[3], [1]]) = pure (.eager [3, 1]) := by
  rw [evaluate, chainContext_revsetForCommitIds_three_one]
  rfl

theorem chainContext_ancestors_three_one {X A : InternalRevset}
    (hX : chainContext.evaluate (.commits [[3], [1]]) = pure X)
    (hA : chainContext.evaluate (RevsetExpression.commits [[3], [1]]).ancestorsFull = pure A)
    (c : Nat) :
    c ∈ A.iter chainContext.compositeIndex ↔
      ∃ h ∈ X.iter chainContext.compositeIndex, chainContext.compositeIndex.IsAncestor c h := by
  simp only [RevsetExpression.ancestorsFull, evaluate,
    chainContext_revsetForCommitIds_three_one] at hA
  rw [chainContext_evaluate_three_one, Eval.pure_inj] at hX
  cases Eval.pure_inj.mp hA
  subst hX
  simp only [InternalRevset.iter, List.mem_cons, List.mem_singleton, exists_eq_or_imp,
    exists_eq_left, List.not_mem_nil, or_false]
  rw [show chainContext.compositeIndex = chainIndex from rfl, chainIndex_isAncestor_iff,
    chainIndex_isAncestor_iff]
  show c ∈ [3, 2, 1, 0] ↔ _
  simp only [List.mem_cons, List.mem_singleton, List.not_mem_nil, or_false]
  omega

/-- `roots(3 | 1)`: commit `1` is an ancestor of commit `3`, so `3` is no root. -/
theorem evaluate_roots_members_chain :
    chainContext.compositeIndex.WalksDescending ∧ chainContext.compositeIndex.ParentsBelow ∧
    (∀ {X A : InternalRevset}, chainContext.evaluate (.commits [[3], [1]]) = pure X →
      chainContext.evaluate (RevsetExpression.commits [[3], [1]]).ancestorsFull = pure A →
      ∀ c, c ∈ A.iter chainContext.compositeIndex ↔
        ∃ h ∈ X.iter chainContext.compositeIndex, chainContext.compositeIndex.IsAncestor c h) ∧
    chainContext.evaluate (.commits [[3], [1]]) = pure (.eager [3, 1]) ∧
    chainContext.evaluate (.roots (.commits [[3], [1]])) = pure (.eager [1]) ∧
    ((InternalRevset.eager [1]).iter chainContext.compositeIndex).Sorted (· > ·) ∧
    ∀ c, c ∈ (InternalRevset.eager [1]).iter chainContext.compositeIndex ↔
      c ∈ (InternalRevset.eager [3, 1]).iter chainContext.compositeIndex ∧
      ¬∃ m ∈ (InternalRevset.eager [3, 1]).iter chainContext.compositeIndex,
        m ≠ c ∧ chainContext.compositeIndex.IsAncestor m c :=
  have hS : chainContext.evaluate (.roots (.commits [[3], [1]])) = pure (.eager [1]) := by
    simp only [RevsetExpression.connected, RevsetExpression.ancestorsFull, evaluate,
      chainContext_revsetForCommitIds_three_one]
    rfl
  ⟨chainIndex_walksDescending, chainIndex_parentsBelow, (chainContext_ancestors_three_one · ·),
    chainContext_evaluate_three_one, hS,
    evaluate_roots_members chainContext chainIndex_walksDescending chainIndex_parentsBelow
      (chainContext_ancestors_three_one · ·) chainContext_evaluate_three_one hS⟩

/-- `Children(r)` yields exactly the members of `All` with a parent among the members of
`r`, in `All`'s order: restricting the candidates to the descendants of `r` loses no
child and admits no non-child. -/
theorem evaluate_children_members (r : RevsetExpression) {R All : InternalRevset}
    (hr : ctx.evaluate r = pure R) (hall : ctx.evaluate .all = pure All) :
    ∃ S, ctx.evaluate (.children r) = pure S ∧
      S.iter ctx.compositeIndex = (All.iter ctx.compositeIndex).filter (fun c =>
        (ctx.compositeIndex.parentPositions c).any (· ∈ R.iter ctx.compositeIndex)) ∧
      ∀ c, c ∈ S.iter ctx.compositeIndex ↔ c ∈ All.iter ctx.compositeIndex ∧
        ∃ p ∈ ctx.compositeIndex.parentPositions c, p ∈ R.iter ctx.compositeIndex := by
  have hiter : (InternalRevset.children R (.eager (dagRangeSweep ctx.compositeIndex
      (R.iter ctx.compositeIndex) (All.iter ctx.compositeIndex)))).iter ctx.compositeIndex =
      childrenIter ctx.compositeIndex (R.iter ctx.compositeIndex) (All.iter ctx.compositeIndex) :=
    childrenIter_dagRangeSweep _ _ _
  refine ⟨_, ?_, hiter, fun c => hiter ▸ InternalRevset.mem_childrenIter _⟩
  rw [evaluate_all] at hall
  rw [evaluate_children, hr, RevsetExpression.descendants, evaluate_dagRange, hr, hall]
  rfl

theorem chainContext_evaluate_all :
    chainContext.evaluate .all = pure (.revWalk [4, 3, 2, 1, 0]) := by
  simp only [evaluate_all, RevsetExpression.ancestorsFull, evaluate]
  rw [show chainContext.visibleHeads = [[(4 : Fin 256)]] from rfl,
    chainContext_revsetForCommitIds 4 (by decide)]
  rfl

theorem evaluate_children_members_chain :
    chainContext.evaluate (.commits [[2]]) = pure (.eager [2]) ∧
    chainContext.evaluate .all = pure (.revWalk [4, 3, 2, 1, 0]) ∧
    ∃ S, chainContext.evaluate (.children (.commits [[2]])) = pure S ∧
      S.iter chainContext.compositeIndex =
        ((InternalRevset.revWalk [4, 3, 2, 1, 0]).iter chainContext.compositeIndex).filter
          (fun c => (chainContext.compositeIndex.parentPositions c).any
            (· ∈ (InternalRevset.eager [2]).iter chainContext.compositeIndex)) ∧
      ∀ c, c ∈ S.iter chainContext.compositeIndex ↔
        c ∈ (InternalRevset.revWalk [4, 3, 2, 1, 0]).iter chainContext.compositeIndex ∧
        ∃ p ∈ chainContext.compositeIndex.parentPositions c,
          p ∈ (InternalRevset.eager [2]).iter chainContext.compositeIndex :=
  ⟨chainContext_evaluate_commits 2 (by decide), chainContext_evaluate_all,
    evaluate_children_members chainContext _ (chainContext_evaluate_commits 2 (by decide))
      chainContext_evaluate_all⟩

end EvaluationContext

end RevsetEngine
