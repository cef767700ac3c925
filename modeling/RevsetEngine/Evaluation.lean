import Mathlib.Data.List.Destutter
import RevsetEngine.Iterator
import RevsetEngine.Latest
import RevsetEngine.SetAlgebra
import RevsetEngine.Sweep

/-!
What `evaluate` returns. Under the walker's contract every set it builds is well formed,
so each yields strictly descending entries and its probe answers by membership, and the
set operators of an expression are the set operations on what its operands yield. A
probe consumes what it matches, so over non-increasing queries it answers by membership
minus the earlier queries: a repeated query at a member is not matched again.
-/

namespace RevsetEngine

namespace Eval

theorem pure_inj {α : Type} {a b : α} : (pure a : Eval α) = pure b ↔ a = b := by
  show some (Except.ok a) = some (Except.ok b) ↔ a = b
  simp

theorem bind_eq_pure {α β : Type} {x : Eval α} {f : α → Eval β} {b : β} :
    (x >>= f) = pure b ↔ ∃ a, x = pure a ∧ f a = pure b := by
  show Option.bind (x : Option (Except RevsetError α)) (ExceptT.bindCont f) = some (.ok b) ↔
    ∃ a, (x : Option (Except RevsetError α)) = some (.ok a) ∧
      (f a : Option (Except RevsetError β)) = some (.ok b)
  rcases x with _ | _ | a
  · simp
  · simp only [Option.some_bind, ExceptT.bindCont]
    exact Iff.intro (fun h => by cases h) (fun ⟨_, h, _⟩ => by cases h)
  · simp only [Option.some_bind, ExceptT.bindCont]
    exact ⟨fun h => ⟨a, rfl, h⟩, fun ⟨_, h, h'⟩ => by cases h; exact h'⟩

/-- Two evaluations and a result built from both, the shape of most branches. -/
theorem bind_bind_pure_eq_pure {α β γ : Type} {x : Eval α} {y : Eval β} {f : α → β → γ}
    {c : γ} : (x >>= fun a => y >>= fun b => pure (f a b)) = pure c ↔
      ∃ a b, x = pure a ∧ y = pure b ∧ f a b = c := by
  simp only [bind_eq_pure, pure_inj]
  constructor
  · rintro ⟨a, ha, b, hb, rfl⟩
    exact ⟨a, b, ha, hb, rfl⟩
  · rintro ⟨a, b, ha, hb, rfl⟩
    exact ⟨a, ha, b, hb, rfl⟩

theorem lift_eq_pure {α : Type} {o : Option α} {a : α} :
    (ExceptT.lift o : Eval α) = pure a ↔ o = some a := by
  show Option.map Except.ok o = some (Except.ok a) ↔ _
  simp

theorem tryCatch_eq_pure {α : Type} {x : Eval α} {h : RevsetError → Eval α} {b : α} :
    tryCatch x h = pure b ↔ x = pure b ∨ ∃ e, x = throw e ∧ h e = pure b := by
  rcases x with _ | e | a
  · exact iff_of_false (fun h => nomatch h) (by rintro (h | ⟨_, h, _⟩) <;> cases h)
  · show h e = pure b ↔ _
    exact ⟨fun h' => Or.inr ⟨e, rfl, h'⟩, by rintro (h' | ⟨_, h', h''⟩) <;> cases h'; exact h''⟩
  · show some (Except.ok a) = some (Except.ok b) ↔ _
    exact ⟨fun h' => Or.inl h', by rintro (h' | ⟨_, h', _⟩) <;> cases h'; rfl⟩

end Eval

/-- Sorting descending and then dropping repeats of a neighbour leaves a strictly
descending sequence. -/
theorem sorted_destutter_mergeSort (l : List Nat) :
    (((l.mergeSort fun a b => decide (b ≤ a)).destutter (· ≠ ·))).Sorted (· > ·) := by
  have hge := (sorted_mergeSort_ge l).sublist (List.destutter_sublist (· ≠ ·) _)
  have hne := List.destutter_is_chain' (· ≠ ·) (l.mergeSort fun a b => decide (b ≤ a))
  generalize (l.mergeSort fun a b => decide (b ≤ a)).destutter (· ≠ ·) = d at hge hne
  rw [List.Sorted, ← List.chain'_iff_pairwise]
  induction d with
  | nil => exact List.chain'_nil
  | cons a d ih =>
      cases d with
      | nil => exact List.chain'_singleton a
      | cons b d =>
          rw [List.chain'_cons] at hne ⊢
          exact ⟨lt_of_le_of_ne (List.rel_of_sorted_cons hge b (List.mem_cons_self b d))
            hne.1.symm, ih (List.sorted_cons.mp hge).2 hne.2⟩

namespace EvaluationContext

variable (ctx : EvaluationContext)

open InternalRevset

theorem revsetForCommitIds_wellFormed {commitIds : List CommitId} {S : InternalRevset}
    (h : ctx.revsetForCommitIds commitIds = some S) : S.WellFormed := by
  simp only [revsetForCommitIds, Option.bind_eq_bind, Option.bind_eq_some] at h
  obtain ⟨es, -, h⟩ := h
  cases h
  exact sorted_destutter_mergeSort es

/-- Under the walker's contract, every set `evaluate` returns is well formed. -/
theorem evaluate_wellFormed (hw : ctx.compositeIndex.WalksDescending) (e : RevsetExpression) :
    ∀ {S : InternalRevset}, ctx.evaluate e = pure S → S.WellFormed := by
  induction e using evaluate.induct ctx <;> intro S h <;> rw [evaluate] at h
  case case1 | case2 | case3 | case4 | case5 | case6 =>
    rw [unresolved, Eval.lift_eq_pure] at h
    cases h
  case case7 => exact (Eval.pure_inj.mp h) ▸ List.sorted_nil
  case case8 ih | case11 _ _ ih | case19 _ ih => exact ih h
  case case9 | case14 => exact ctx.revsetForCommitIds_wellFormed (Eval.lift_eq_pure.mp h)
  case case10 _ ih1 ih2 | case21 _ ih1 ih2 | case22 _ _ ih1 ih2 | case23 _ _ ih1 ih2
  | case24 _ _ ih1 ih2 =>
    obtain ⟨A, B, hA, hB, rfl⟩ := Eval.bind_bind_pure_eq_pure.mp h
    exact ⟨ih1 hA, ih2 hB⟩
  case case12 =>
    obtain ⟨A, -, h⟩ := Eval.bind_eq_pure.mp h
    obtain ⟨B, -, h⟩ := Eval.bind_eq_pure.mp h
    split at h <;> rw [Eval.pure_inj] at h <;> subst h
    · exact hw.1 _ _
    · exact hw.2 _ _ _
  case case13 _ _ _ ih2 =>
    obtain ⟨A, B, -, hB, rfl⟩ := Eval.bind_bind_pure_eq_pure.mp h
    exact ((ih2 hB).sorted _).sublist (dagRangeSweep_sublist _ _ _)
  case case15 =>
    obtain ⟨A, -, h⟩ := Eval.bind_eq_pure.mp h
    exact ctx.revsetForCommitIds_wellFormed (Eval.lift_eq_pure.mp h)
  case case16 _ _ ih2 =>
    obtain ⟨A, B, -, hB, rfl⟩ := Eval.bind_bind_pure_eq_pure.mp h
    exact ((ih2 hB).sorted _).filter _
  case case17 _ _ ih =>
    obtain ⟨A, hA, h⟩ := Eval.bind_eq_pure.mp h
    obtain ⟨entries, rfl, hs⟩ :=
      ctx.takeLatestRevset_sorted ((ih hA).sorted _).nodup (Eval.lift_eq_pure.mp h)
    exact hs
  case case18 _ ih =>
    obtain ⟨A, hA, h⟩ := Eval.bind_eq_pure.mp h
    rw [Eval.pure_inj] at h
    exact h ▸ (ih hA : A.WellFormed)
  case case20 _ ih =>
    rcases Eval.tryCatch_eq_pure.mp h with h | ⟨e, -, h⟩
    · exact ih h
    · cases e with
      | noSuchRevision => exact (Eval.pure_inj.mp h) ▸ List.sorted_nil
      | _ => cases h

/-- Every set `evaluate` returns yields strictly descending positions, so no entry
twice. -/
theorem evaluate_iter_chain_gt (hw : ctx.compositeIndex.WalksDescending)
    {e : RevsetExpression} {S : InternalRevset} (h : ctx.evaluate e = pure S) :
    (S.iter ctx.compositeIndex).Chain' (· > ·) ∧ (S.iter ctx.compositeIndex).Nodup :=
  have hs := (ctx.evaluate_wellFormed hw e h).sorted ctx.compositeIndex
  ⟨hs.chain', hs.nodup⟩

theorem chainIndex_walksDescending : chainIndex.WalksDescending :=
  ⟨fun _ _ => List.Sorted.filter _ (by decide), fun _ _ _ => List.Sorted.filter _ (by decide)⟩

theorem chainContext_revsetForCommitIds (b : Fin 256) (hb : b.val < 5) :
    chainContext.revsetForCommitIds [[b]] = some (.eager [b.val]) := by
  simp [revsetForCommitIds, chainContext, chainIndex, List.mapM, List.mapM.loop, hb,
    List.destutter, List.destutter']

theorem chainContext_evaluate_commits (b : Fin 256) (hb : b.val < 5) :
    chainContext.evaluate (.commits [[b]]) = pure (.eager [b.val]) := by
  rw [evaluate, chainContext_revsetForCommitIds b hb]
  rfl

theorem chainContext_evaluate_union :
    chainContext.evaluate (.union (.commits [[3]]) (.commits [[1]])) =
      pure (.union (.eager [3]) (.eager [1])) := by
  simp only [evaluate, chainContext_revsetForCommitIds 3 (by decide),
    chainContext_revsetForCommitIds 1 (by decide)]
  rfl

theorem evaluate_iter_chain_gt_union :
    chainContext.compositeIndex.WalksDescending ∧
      chainContext.evaluate (.union (.commits [[3]]) (.commits [[1]])) =
        pure (.union (.eager [3]) (.eager [1])) ∧
      ((InternalRevset.union (.eager [3]) (.eager [1])).iter
        chainContext.compositeIndex).Chain' (· > ·) ∧
      ((InternalRevset.union (.eager [3]) (.eager [1])).iter chainContext.compositeIndex).Nodup :=
  ⟨chainIndex_walksDescending, chainContext_evaluate_union,
    evaluate_iter_chain_gt chainContext chainIndex_walksDescending chainContext_evaluate_union⟩

/-- A fresh probe of an evaluated set, called on strictly descending queries, answers
`Match` exactly at the members and `NeverAgain` only past every member. -/
theorem evaluate_probe_conservative (hw : ctx.compositeIndex.WalksDescending)
    {e : RevsetExpression} {S : InternalRevset} (h : ctx.evaluate e = pure S)
    {qs : List Nat} (hqs : qs.Sorted (· > ·)) :
    List.Forall₂ (fun q r => (r = .match ↔ q ∈ S.iter ctx.compositeIndex) ∧
        (r = .neverAgain → ∀ x ∈ S.iter ctx.compositeIndex, q < x))
      qs ((S.toPredicateFn ctx.compositeIndex).run qs) :=
  have hS := (ctx.evaluate_wellFormed hw e h).spec ctx.compositeIndex
  PredicateFn.run_sound hqs hS.2.1 fun x _ => hS.2.2 x

theorem evaluate_probe_conservative_union :
    chainContext.compositeIndex.WalksDescending ∧
      chainContext.evaluate (.union (.commits [[3]]) (.commits [[1]])) =
        pure (.union (.eager [3]) (.eager [1])) ∧ [4, 3, 2, 0].Sorted (· > ·) ∧
      List.Forall₂ (fun q r =>
          (r = .match ↔ q ∈ (InternalRevset.union (.eager [3]) (.eager [1])).iter
            chainContext.compositeIndex) ∧
          (r = .neverAgain →
            ∀ x ∈ (InternalRevset.union (.eager [3]) (.eager [1])).iter
              chainContext.compositeIndex, q < x))
        [4, 3, 2, 0] (((InternalRevset.union (.eager [3]) (.eager [1])).toPredicateFn
          chainContext.compositeIndex).run [4, 3, 2, 0]) :=
  ⟨chainIndex_walksDescending, chainContext_evaluate_union, by decide,
    evaluate_probe_conservative chainContext chainIndex_walksDescending
      chainContext_evaluate_union (by decide)⟩

/-- A fresh probe of an evaluated set, called on non-increasing queries, answers `Match`
at the first query of a member only: it consumes each member it matches, so a repeated
query at a member answers `NotThisOne` or `NeverAgain`. It answers `NeverAgain` only once
every member at or below the query has been queried. -/
theorem evaluate_probe_repeated (hw : ctx.compositeIndex.WalksDescending)
    {e : RevsetExpression} {S : InternalRevset} (h : ctx.evaluate e = pure S)
    {qs : List Nat} (hqs : qs.Sorted (· ≥ ·)) (i : Nat) (hi : i < qs.length) :
    (((S.toPredicateFn ctx.compositeIndex).run qs)[i]? = some .match ↔
        qs[i] ∈ S.iter ctx.compositeIndex ∧ qs[i] ∉ qs.take i) ∧
      (((S.toPredicateFn ctx.compositeIndex).run qs)[i]? = some .neverAgain →
        ∀ x ∈ S.iter ctx.compositeIndex, x ≤ qs[i] → x ∈ qs.take i) :=
  have hS := (ctx.evaluate_wellFormed hw e h).spec ctx.compositeIndex
  PredicateFn.run_getElem?_of_consumes hqs [] hS.2.1 (S.toPredicateFn_consumes _)
    (fun x _ => (hS.2.2 x).trans (and_iff_left (List.not_mem_nil x)).symm) i hi

theorem evaluate_probe_repeated_chain :
    chainContext.compositeIndex.WalksDescending ∧
      chainContext.evaluate (.commits [[3]]) = pure (.eager [3]) ∧ [3, 3].Sorted (· ≥ ·) ∧
      1 < [3, 3].length ∧
      ((((InternalRevset.eager [3]).toPredicateFn chainContext.compositeIndex).run [3, 3])[1]? =
          some .match ↔
        [3, 3][1] ∈ (InternalRevset.eager [3]).iter chainContext.compositeIndex ∧
          [3, 3][1] ∉ [3, 3].take 1) ∧
      ((((InternalRevset.eager [3]).toPredicateFn chainContext.compositeIndex).run [3, 3])[1]? =
          some .neverAgain →
        ∀ x ∈ (InternalRevset.eager [3]).iter chainContext.compositeIndex, x ≤ [3, 3][1] →
          x ∈ [3, 3].take 1) :=
  ⟨chainIndex_walksDescending, chainContext_evaluate_commits 3 (by decide), by decide, by decide,
    evaluate_probe_repeated chainContext chainIndex_walksDescending
      (chainContext_evaluate_commits 3 (by decide)) (by decide) 1 (by decide)⟩

/-- The set `{3}` of the five-commit history, probed twice at `3`: the list model and the
closure with its `Peekable` cache both answer `Match`, then `NeverAgain`. -/
theorem evaluate_probe_repeat_three :
    chainContext.evaluate (.commits [[3]]) = pure (.eager [3]) ∧
      ((InternalRevset.eager [3]).toPredicateFn chainContext.compositeIndex).run [3, 3] =
        [.match, .neverAgain] ∧
      (∃ p', PredicateRuns chainContext.compositeIndex
        ((InternalRevset.eager [3]).predicateInit chainContext.compositeIndex) [3, 3]
        [.match, .neverAgain] p') ∧
      ∀ answers p', PredicateRuns chainContext.compositeIndex
        ((InternalRevset.eager [3]).predicateInit chainContext.compositeIndex) [3, 3]
        answers p' → answers = [.match, .neverAgain] := by
  obtain ⟨-, hinit, -, hinv⟩ := (InternalRevset.eager [3]).init_spec chainContext.compositeIndex
  have hrun : ((InternalRevset.eager [3]).toPredicateFn chainContext.compositeIndex).run [3, 3] =
      [.match, .neverAgain] := rfl
  have hanswers : ∀ answers p', PredicateRuns chainContext.compositeIndex
      ((InternalRevset.eager [3]).predicateInit chainContext.compositeIndex) [3, 3]
      answers p' → answers = [.match, .neverAgain] := fun _ _ h =>
    (PredicateRuns.answers_eq hinv h).trans (hinit ▸ hrun)
  obtain ⟨answers, p', h⟩ := PredicateRuns.exists hinv [3, 3]
  exact ⟨chainContext_evaluate_commits 3 (by decide), hrun, ⟨p', hanswers _ _ h ▸ h⟩, hanswers⟩

/-- The set operators of an expression denote the set operations on what their operands
yield: union, intersection by a `FilterRevset`, difference, complement within `All`, and
the content filter within `All`. -/
def SetOperatorsSound : Prop :=
  (∀ {a b : RevsetExpression} {A B : InternalRevset},
    ctx.evaluate a = pure A → ctx.evaluate b = pure B →
    ctx.evaluate (.union a b) = pure (.union A B) ∧
      ∀ x, x ∈ (union A B).iter ctx.compositeIndex ↔
        x ∈ A.iter ctx.compositeIndex ∨ x ∈ B.iter ctx.compositeIndex) ∧
  (∀ {a b : RevsetExpression} {A B : InternalRevset},
    ctx.evaluate a = pure A → ctx.evaluate b = pure B →
    ctx.evaluate (.intersection a b) = pure (.filter A B) ∧
      ∀ x, x ∈ (filter A B).iter ctx.compositeIndex ↔
        x ∈ A.iter ctx.compositeIndex ∧ x ∈ B.iter ctx.compositeIndex) ∧
  (∀ {a b : RevsetExpression} {A B : InternalRevset},
    ctx.evaluate a = pure A → ctx.evaluate b = pure B →
    ctx.evaluate (.difference a b) = pure (.difference A B) ∧
      ∀ x, x ∈ (difference A B).iter ctx.compositeIndex ↔
        x ∈ A.iter ctx.compositeIndex ∧ x ∉ B.iter ctx.compositeIndex) ∧
  (∀ {a : RevsetExpression} {All A : InternalRevset},
    ctx.evaluate .all = pure All → ctx.evaluate a = pure A →
    ctx.evaluate (.notIn a) = pure (.difference All A) ∧
      ∀ x, x ∈ (difference All A).iter ctx.compositeIndex ↔
        x ∈ All.iter ctx.compositeIndex ∧ x ∉ A.iter ctx.compositeIndex) ∧
  (∀ {p : RevsetFilterPredicate} {All : InternalRevset},
    ctx.evaluate .all = pure All →
    ctx.evaluate (.filter p) =
        pure (.filterPure All (buildPredicateFn ctx.store ctx.compositeIndex p)) ∧
      ∀ x, x ∈ (filterPure All (buildPredicateFn ctx.store ctx.compositeIndex p)).iter
          ctx.compositeIndex ↔
        x ∈ All.iter ctx.compositeIndex ∧ p.test ctx.store ctx.compositeIndex x = true)

theorem evaluate_set_operations (hw : ctx.compositeIndex.WalksDescending) :
    ctx.SetOperatorsSound := by
  have wf := ctx.evaluate_wellFormed hw
  refine ⟨fun hA hB => ⟨?_, fun _ => mem_iter_union _⟩,
    fun hA hB => ⟨?_, fun _ => (wf _ hA).mem_iter_filter _ (wf _ hB)⟩,
    fun hA hB => ⟨?_, fun _ => (wf _ hA).mem_iter_difference _ (wf _ hB)⟩,
    fun hAll hA => ⟨?_, fun _ => (wf _ hAll).mem_iter_difference _ (wf _ hA)⟩,
    fun hAll => ⟨?_, fun x => ?_⟩⟩
  all_goals first
    | rw [evaluate, hA, hB]; rfl
    | rw [evaluate, hAll, hA]; rfl
    | rw [evaluate, hAll]; rfl
    | skip
  rw [(wf _ hAll).mem_iter_filterPure]
  simp [buildPredicateFn]

theorem evaluate_set_operations_chain :
    chainContext.compositeIndex.WalksDescending ∧ chainContext.SetOperatorsSound :=
  ⟨chainIndex_walksDescending, evaluate_set_operations chainContext chainIndex_walksDescending⟩

end EvaluationContext

end RevsetEngine
