import Std

/-!
# Computations run at a state

A computation with a state, applied to a state, gives a pair.  The equations here say what that pair is
for a pure value, for one computation after another, and for one computation per element of a list.
`State.foldlM_keeps` carries an invariant through a fold.

`State.Maintains I m` says that the computation `m` leaves every state of `I` in `I`.
-/

namespace OntologyPrep.State

variable {σ α β : Type}

@[simp] theorem pure_apply (x : α) (s : σ) : (pure x : StateM σ α) s = (x, s) := rfl

@[simp] theorem bind_apply (m : StateM σ α) (f : α → StateM σ β) (s : σ) :
    (m >>= f) s = f (m s).1 (m s).2 := rfl

@[simp] theorem map_apply (f : α → β) (m : StateM σ α) (s : σ) :
    (f <$> m) s = (f (m s).1, (m s).2) := rfl

@[simp] theorem mapM_nil_apply (f : α → StateM σ β) (s : σ) : ([].mapM f) s = ([], s) := rfl

@[simp] theorem mapM_cons_apply (f : α → StateM σ β) (x : α) (xs : List α) (s : σ) :
    ((x :: xs).mapM f) s =
      ((f x s).1 :: (xs.mapM f (f x s).2).1, (xs.mapM f (f x s).2).2) := by
  rw [List.mapM_cons]
  rfl

/-- computations that return what they are given, at the state they are given -/
theorem mapM_eq_self {f : α → StateM σ α} {xs : List α} (h : ∀ x ∈ xs, ∀ s, f x s = (x, s)) (s : σ) :
    (xs.mapM f) s = (xs, s) := by
  induction xs with
  | nil => rfl
  | cons x xs ih => rw [mapM_cons_apply, h x (by simp), ih fun y hy => h y (by simp [hy])]

/-- what every computation returns is of a kind if each of them returns such -/
theorem forall_mem_mapM {f : α → StateM σ β} {P : β → Prop} {xs : List α}
    (h : ∀ x ∈ xs, ∀ s, P (f x s).1) (s : σ) : ∀ y ∈ ((xs.mapM f) s).1, P y := by
  induction xs generalizing s with
  | nil => exact fun y hy => absurd hy List.not_mem_nil
  | cons x xs ih =>
    rw [mapM_cons_apply]
    exact List.forall_mem_cons.mpr ⟨h x (by simp) s, ih (fun y hy => h y (by simp [hy])) _⟩

/-- an invariant that every computation keeps, and what each of them returns as long as it holds -/
theorem mapM_keeps {f : α → StateM σ β} {P : β → Prop} {I : σ → Prop} {xs : List α}
    (h : ∀ x ∈ xs, ∀ s, I s → P (f x s).1 ∧ I (f x s).2) {s : σ} (hs : I s) :
    (∀ y ∈ ((xs.mapM f) s).1, P y) ∧ I ((xs.mapM f) s).2 := by
  induction xs generalizing s with
  | nil => exact ⟨fun y hy => absurd hy List.not_mem_nil, hs⟩
  | cons x xs ih =>
    obtain ⟨hx, hnext⟩ := h x List.mem_cons_self s hs
    obtain ⟨hxs, hlast⟩ := ih (fun y hy => h y (List.mem_cons_of_mem _ hy)) hnext
    rw [mapM_cons_apply]
    exact ⟨List.forall_mem_cons.mpr ⟨hx, hxs⟩, hlast⟩

/-- an invariant that every computation keeps, and how what each of them returns goes with what it is
given as long as it holds -/
theorem mapM_relates {f : α → StateM σ β} {R : α → β → Prop} {I : σ → Prop} {xs : List α}
    (h : ∀ x ∈ xs, ∀ s, I s → R x (f x s).1 ∧ I (f x s).2) {s : σ} (hs : I s) :
    ((xs.mapM f) s).1.length = xs.length ∧ (∀ p ∈ xs.zip ((xs.mapM f) s).1, R p.1 p.2) ∧
      I ((xs.mapM f) s).2 := by
  induction xs generalizing s with
  | nil => exact ⟨rfl, fun p hp => absurd hp List.not_mem_nil, hs⟩
  | cons x xs ih =>
    obtain ⟨hx, hnext⟩ := h x List.mem_cons_self s hs
    obtain ⟨hlen, hxs, hlast⟩ := ih (fun y hy => h y (List.mem_cons_of_mem _ hy)) hnext
    rw [mapM_cons_apply]
    exact ⟨congrArg (· + 1) hlen, List.forall_mem_cons.mpr ⟨hx, hxs⟩, hlast⟩

@[simp] theorem forM_cons_apply (f : α → StateM σ PUnit) (x : α) (xs : List α) (s : σ) :
    ((x :: xs).forM f) s = (xs.forM f) (f x s).2 := rfl

/-- an invariant that every computation keeps -/
theorem forM_keeps {f : α → StateM σ PUnit} {I : σ → Prop} {xs : List α}
    (h : ∀ x ∈ xs, ∀ s, I s → I (f x s).2) {s : σ} (hs : I s) : I ((xs.forM f) s).2 := by
  induction xs generalizing s with
  | nil => exact hs
  | cons x xs ih =>
    exact ih (fun y hy => h y (List.mem_cons_of_mem _ hy)) (h x List.mem_cons_self s hs)

/-- computations that do the same at related states do so one after another -/
theorem mapM_simulates {τ γ δ : Type} {f : α → StateM σ β} {g : γ → StateM τ δ} {inputs : α → γ}
    {outputs : β → δ} {R : σ → τ → Prop} {xs : List α}
    (h : ∀ x ∈ xs, ∀ s t, R s t →
      (g (inputs x) t).1 = outputs (f x s).1 ∧ R (f x s).2 (g (inputs x) t).2)
    {s : σ} {t : τ} (hst : R s t) :
    ((xs.map inputs).mapM g t).1 = (xs.mapM f s).1.map outputs ∧
      R (xs.mapM f s).2 ((xs.map inputs).mapM g t).2 := by
  induction xs generalizing s t with
  | nil => exact ⟨rfl, hst⟩
  | cons x xs ih =>
    obtain ⟨hx, hrel⟩ := h x List.mem_cons_self s t hst
    obtain ⟨hxs, hlast⟩ := ih (fun y hy => h y (List.mem_cons_of_mem _ hy)) hrel
    rw [List.map_cons, mapM_cons_apply, mapM_cons_apply, List.map_cons, hx, hxs]
    exact ⟨rfl, hlast⟩

@[simp] theorem foldlM_nil_apply (f : β → α → StateM σ β) (b : β) (s : σ) :
    ([].foldlM f b) s = (b, s) := rfl

@[simp] theorem foldlM_cons_apply (f : β → α → StateM σ β) (b : β) (x : α) (xs : List α) (s : σ) :
    ((x :: xs).foldlM f b) s = (xs.foldlM f (f b x s).1) (f b x s).2 := rfl

/-- what every step keeps holds at the end -/
theorem foldlM_keeps {f : β → α → StateM σ β} {P : β → Prop} {xs : List α}
    (h : ∀ b, ∀ x ∈ xs, ∀ s, P b → P (f b x s).1) {b : β} (s : σ) (hb : P b) :
    P ((xs.foldlM f b) s).1 := by
  induction xs generalizing b s with
  | nil => exact hb
  | cons x xs ih =>
    exact ih (fun b y hy => h b y (by simp [hy])) _ (h b x (by simp) s hb)

/-! ## invariants -/

/-- the computation keeps an invariant of its state -/
def Maintains (I : σ → Prop) (m : StateM σ α) : Prop := ∀ s, I s → I (m s).2

variable {I : σ → Prop}

theorem maintains_pure (x : α) : Maintains I (pure x : StateM σ α) := fun _ hs => hs

theorem Maintains.bind {m : StateM σ α} {f : α → StateM σ β} (hm : Maintains I m)
    (hf : ∀ x, Maintains I (f x)) : Maintains I (m >>= f) := fun s hs => hf _ _ (hm s hs)

theorem maintains_mapM {f : α → StateM σ β} {xs : List α} (h : ∀ x ∈ xs, Maintains I (f x)) :
    Maintains I (xs.mapM f) :=
  fun _ hs => (mapM_keeps (P := fun _ => True) (fun x hx s hs => ⟨trivial, h x hx s hs⟩) hs).2

theorem maintains_forM {f : α → StateM σ PUnit} {xs : List α} (h : ∀ x ∈ xs, Maintains I (f x)) :
    Maintains I (xs.forM f) := fun _ hs => forM_keeps h hs

end OntologyPrep.State
