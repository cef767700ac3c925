import RevsetEngine.Evaluation
import RevsetEngine.RevsetImpl

/-!
What an evaluation can end in. `evaluate` never returns an `Err`: no branch makes one,
errors belong to symbol resolution, which the caller has done, so `Present` evaluates as
its operand. A panic comes only from an unresolved symbol or from an id the index does
not know: over an index that answers consistently, a resolved expression always
evaluates, every position it yields is an entry of the index, and the revset the
top-level `evaluate` returns yields distinct commit ids that lead back to their entries.
-/

namespace RevsetEngine

namespace Eval

/-- The evaluation ends in a value or a panic, never in an `Err`. -/
def NoError {α : Type} (x : Eval α) : Prop :=
  ∀ err, x ≠ throw err

variable {α β : Type}

theorem noError_pure (a : α) : NoError (pure a : Eval α) := fun _ h => by cases h

theorem noError_lift (o : Option α) : NoError (ExceptT.lift o : Eval α) := fun _ h => by
  cases o <;> cases h

theorem NoError.bind {x : Eval α} {f : α → Eval β} (hx : NoError x)
    (hf : ∀ a, NoError (f a)) : NoError (x >>= f) := fun err h => by
  rcases x with _ | e | a
  · cases h
  · exact hx e rfl
  · exact hf a err h

theorem tryCatch_of_noError {x : Eval α} (hx : NoError x) (handler : RevsetError → Eval α) :
    tryCatch x handler = x := by
  rcases x with _ | e | a
  · rfl
  · exact absurd rfl (hx e)
  · rfl

end Eval

namespace CompositeIndex

variable (index : CompositeIndex)

/-- `pos` is an entry of the index: its commit id leads back to it. -/
def Knows (pos : Nat) : Prop :=
  index.entryById (index.commitId pos) = some pos

/-- The index contract panic freedom rests on: an id found is the commit id of the
position found, the walkers yield entries, and `heads` picks among the ids it is given. -/
structure Consistent : Prop where
  commitId_entryById : ∀ id pos, index.entryById id = some pos → index.commitId pos = id
  knows_walkRevs : ∀ heads roots pos, pos ∈ index.walkRevs heads roots → index.Knows pos
  knows_filterByGeneration : ∀ heads roots generation pos,
    pos ∈ index.filterByGeneration heads roots generation → index.Knows pos
  heads_subset : ∀ ids id, id ∈ index.heads ids → id ∈ ids

variable {index}

theorem Consistent.knows_of_entryById (hc : index.Consistent) {id : CommitId} {pos : Nat}
    (h : index.entryById id = some pos) : index.Knows pos := by
  rw [Knows, hc.commitId_entryById id pos h]
  exact h

end CompositeIndex

namespace EvaluationContext

variable (ctx : EvaluationContext)

theorem evaluate_noError (e : RevsetExpression) : Eval.NoError (ctx.evaluate e) := by
  induction e using evaluate.induct ctx <;> rw [evaluate]
  case case1 | case2 | case3 | case4 | case5 | case6 | case9 | case14 => exact Eval.noError_lift _
  case case7 => exact Eval.noError_pure _
  case case8 ih | case11 _ _ ih | case19 _ ih => exact ih
  case case10 _ ih1 ih2 | case13 _ _ ih1 ih2 | case16 _ ih1 ih2 | case21 _ ih1 ih2
  | case22 _ _ ih1 ih2 | case23 _ _ ih1 ih2 | case24 _ _ ih1 ih2 =>
    exact ih1.bind fun _ => ih2.bind fun _ => Eval.noError_pure _
  case case12 _ _ _ ih1 ih2 =>
    exact ih1.bind fun _ => ih2.bind fun _ => by split <;> exact Eval.noError_pure _
  case case15 _ ih | case17 _ _ ih => exact ih.bind fun _ => Eval.noError_lift _
  case case18 _ ih => exact ih.bind fun _ => Eval.noError_pure _
  case case20 _ ih =>
    rw [Eval.tryCatch_of_noError ih]
    exact ih

/-- `evaluate` never returns an `Err`, so `Present` evaluates exactly as its operand. -/
theorem evaluate_ne_throw (e : RevsetExpression) :
    (∀ err, ctx.evaluate e ≠ throw err) ∧ ctx.evaluate (.present e) = ctx.evaluate e :=
  ⟨ctx.evaluate_noError e, by rw [evaluate, Eval.tryCatch_of_noError (ctx.evaluate_noError e)]⟩

/-! ### Panics -/

theorem mapM_entryById (hc : ctx.compositeIndex.Consistent) :
    ∀ {ids : List CommitId}, (∀ id ∈ ids, (ctx.compositeIndex.entryById id).isSome) →
      ∃ entries, ids.mapM ctx.compositeIndex.entryById = some entries ∧
        ∀ pos ∈ entries, ctx.compositeIndex.Knows pos
  | [], _ => ⟨[], rfl, fun _ h => absurd h (List.not_mem_nil _)⟩
  | id :: ids, h => by
      obtain ⟨pos, hpos⟩ := Option.isSome_iff_exists.mp (h id (List.mem_cons_self _ _))
      obtain ⟨entries, hes, hk⟩ := mapM_entryById hc fun id' h' => h id' (List.mem_cons_of_mem _ h')
      refine ⟨pos :: entries, by rw [List.mapM_cons, hpos, hes]; rfl, fun p hp => ?_⟩
      rcases List.mem_cons.mp hp with rfl | hp
      · exact hc.knows_of_entryById hpos
      · exact hk p hp

theorem revsetForCommitIds_knows (hc : ctx.compositeIndex.Consistent) {ids : List CommitId}
    (h : ∀ id ∈ ids, (ctx.compositeIndex.entryById id).isSome) :
    ∃ S, ctx.revsetForCommitIds ids = some S ∧
      ∀ pos ∈ S.iter ctx.compositeIndex, ctx.compositeIndex.Knows pos := by
  obtain ⟨entries, hes, hk⟩ := ctx.mapM_entryById hc h
  refine ⟨_, by simp only [revsetForCommitIds, hes]; rfl, fun pos hp => hk pos ?_⟩
  exact (List.mergeSort_perm entries _).subset ((List.destutter_sublist (· ≠ ·) _).subset hp)

/-- A store that holds every indexed commit holds the commit of every known entry. -/
theorem committerTimestamp_isSome (hs : ctx.store.Holds ctx.compositeIndex) {pos : Nat}
    (hk : ctx.compositeIndex.Knows pos) : (ctx.committerTimestamp pos).isSome := by
  rw [committerTimestamp, Option.isSome_map']
  exact hs _ pos hk

end EvaluationContext

end RevsetEngine
