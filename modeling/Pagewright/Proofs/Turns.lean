import Mathlib.Data.List.Basic

/-! Steps that are taken one after another, in an order of their own. Where any two of them can change places
and neither learns of the other, each has the result it has alone, and all orders end in the same state. -/

namespace Pagewright

variable {σ α β : Type} {step : α → StateM σ β} {holds : σ → Prop} {items order : List α}

theorem run_mapM_cons (step : α → StateM σ β) (item : α) (rest : List α) (state : σ) :
    ((item :: rest).mapM step).run state =
      (((step item).run state).1 :: ((rest.mapM step).run ((step item).run state).2).1,
        ((rest.mapM step).run ((step item).run state).2).2) := by
  rw [List.mapM_cons]
  rfl

theorem run_mapM_append (step : α → StateM σ β) (front rest : List α) (state : σ) :
    (((front ++ rest).mapM step).run state).2 = ((rest.mapM step).run ((front.mapM step).run state).2).2 := by
  induction front generalizing state with
  | nil => rfl
  | cons item front ih => rw [List.cons_append, run_mapM_cons, run_mapM_cons, ih]

/-- Steps of which the first has the result it has after the second, and that can change places. -/
structure Swaps (first second : StateM σ β) (state : σ) : Prop where
  result : (first.run (second.run state).2).1 = (first.run state).1
  state : (second.run (first.run state).2).2 = (first.run (second.run state).2).2

/-- A step that does nothing can change places with any other. -/
theorem Swaps.pure_left (value : β) (other : StateM σ β) (state : σ) : Swaps (pure value) other state := ⟨rfl, rfl⟩

theorem Swaps.pure_right (other : StateM σ β) (value : β) (state : σ) : Swaps other (pure value) state := ⟨rfl, rfl⟩

/-- Two steps that can change places, and neither of which learns of the other. -/
theorem Swaps.run_eq {first second : StateM σ β} {state : σ} (swaps : Swaps first second state)
    (also : Swaps second first state) :
    (do let one ← first; let two ← second; return (one, two)).run state =
      (do let two ← second; let one ← first; return (one, two)).run state :=
  Prod.ext (Prod.ext swaps.result.symm also.result) swaps.state

/-- Steps that can change places as long as something holds that all of them keep. -/
structure Orderly (step : α → StateM σ β) (items : List α) (holds : σ → Prop) : Prop where
  kept : ∀ item ∈ items, ∀ state, holds state → holds ((step item).run state).2
  swaps : ∀ first ∈ items, ∀ second ∈ items, first ≠ second → ∀ state, holds state →
    Swaps (step first) (step second) state

namespace Orderly

theorem tail {item : α} (orderly : Orderly step (item :: items) holds) : Orderly step items holds where
  kept other member := orderly.kept other (List.mem_cons_of_mem _ member)
  swaps first member second also :=
    orderly.swaps first (List.mem_cons_of_mem _ member) second (List.mem_cons_of_mem _ also)

theorem perm (orderly : Orderly step items holds) (perm : order.Perm items) : Orderly step order holds where
  kept item member := orderly.kept item (perm.mem_iff.mp member)
  swaps first member second also := orderly.swaps first (perm.mem_iff.mp member) second (perm.mem_iff.mp also)

/-- Each step has the result that it has alone. -/
theorem results (orderly : Orderly step items holds) (once : items.Nodup) {state : σ} (given : holds state) :
    ((items.mapM step).run state).1 = items.map fun item => ((step item).run state).1 := by
  induction items generalizing state with
  | nil => rfl
  | cons item rest ih =>
    obtain ⟨new, others⟩ := List.nodup_cons.mp once
    have later := ih orderly.tail others (orderly.kept item List.mem_cons_self state given)
    rw [run_mapM_cons, List.map_cons, later]
    refine congrArg (_ :: ·) (List.map_congr_left fun other member => ?_)
    have different : other ≠ item := fun same => new (same ▸ member)
    exact (orderly.swaps other (List.mem_cons_of_mem _ member) item List.mem_cons_self different state given).result

theorem state_eq (orderly : Orderly step items holds) (once : items.Nodup) (perm : items.Perm order) {state : σ}
    (given : holds state) : ((items.mapM step).run state).2 = ((order.mapM step).run state).2 := by
  induction perm generalizing state with
  | nil => rfl
  | cons item perm ih =>
    rw [run_mapM_cons, run_mapM_cons]
    exact ih orderly.tail (List.nodup_cons.mp once).2 (orderly.kept item List.mem_cons_self state given)
  | swap first second rest =>
    have different : second ≠ first := fun same => (List.nodup_cons.mp once).1 (same ▸ List.mem_cons_self)
    have swaps := orderly.swaps second List.mem_cons_self first (by simp) different state given
    simp only [run_mapM_cons, swaps.state]
  | trans perm _ ih further =>
    rw [ih orderly once given, further (orderly.perm perm.symm) (perm.nodup_iff.mp once) given]

/-- In every order all steps have the same results and end in the same state. -/
theorem exists_run (orderly : Orderly step items holds) (once : items.Nodup) {state : σ} (given : holds state) :
    ∃ result after, ∀ order : List α, order.Perm items → (order.mapM step).run state = (order.map result, after) := by
  refine ⟨fun item => ((step item).run state).1, ((items.mapM step).run state).2, fun order perm => ?_⟩
  have here := orderly.perm perm
  have single := perm.nodup_iff.mpr once
  exact Prod.ext (here.results single given) (here.state_eq single perm given)

end Orderly

end Pagewright
