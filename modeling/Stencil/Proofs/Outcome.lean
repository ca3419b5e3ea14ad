import Stencil.Fault

/-!
# Outcomes

Inversion lemmas for computations that can fail: what it takes for a sequence of steps, or for a
step repeated along a list, to give a value.  Loops over two indices are taken apart and put together:
a loop over rows and columns is a loop over cells.

## Key results

- `bind_eq_ok_iff` / `bind_eq_error_iff`: when two steps give a value, and when they fail
- `mapM_eq_ok_map` / `foldlM_eq_ok_foldl`: a step that gives a value everywhere along a list
- `foldlM_range_mul` / `mapM_range_mul`: a loop over cells, row by row
-/

namespace Stencil

variable {ε α β : Type}

/-- Two steps give a value when the first does and the second does from there. -/
theorem bind_eq_ok_iff {x : Except ε α} {f : α → Except ε β} {b : β} :
    x >>= f = .ok b ↔ ∃ a, x = .ok a ∧ f a = .ok b := by
  cases x with
  | error e => simp [bind, Except.bind]
  | ok a => simp [bind, Except.bind]

/-- Two steps fail when the first does, or the second does from where the first leads. -/
theorem bind_eq_error_iff {x : Except ε α} {f : α → Except ε β} {e : ε} :
    x >>= f = .error e ↔ x = .error e ∨ ∃ a, x = .ok a ∧ f a = .error e := by
  cases x with
  | error e' => simp [bind, Except.bind]
  | ok a => simp [bind, Except.bind]

theorem pure_eq_ok_iff {a b : α} : (pure a : Except ε α) = .ok b ↔ a = b := by
  simp [pure, Except.pure]

@[simp] theorem ok_bind (a : α) (f : α → Except ε β) : (Except.ok a >>= f) = f a := rfl

/-- A step that gives a value everywhere along a list gives the list of the values. -/
theorem mapM_eq_ok_map {l : List α} {f : α → Except ε β} {g : α → β}
    (h : ∀ a ∈ l, f a = .ok (g a)) : l.mapM f = .ok (l.map g) := by
  induction l with
  | nil => rfl
  | cons a rest ih =>
    -- The step gives a value here, and by induction everywhere behind
    rw [List.mapM_cons, h a List.mem_cons_self, ok_bind,
      ih fun b hb => h b (List.mem_cons_of_mem _ hb)]
    rfl

/-- Values that are there are collected as they are. -/
theorem mapM_id_map_ok (l : List α) : (l.map (Except.ok : α → Except ε α)).mapM id = .ok l := by
  rw [List.mapM_map]
  exact (mapM_eq_ok_map (g := id) fun _ _ => rfl).trans (by rw [List.map_id])

/-- Where a step gives a value along a list, its results are these values. -/
theorem map_eq_map_ok_of_mapM_eq_ok {l : List α} {f : α → Except ε β} {bs : List β}
    (h : l.mapM f = .ok bs) : l.map f = bs.map .ok := by
  induction l generalizing bs with
  | nil =>
    obtain rfl := Except.ok.inj h
    rfl
  | cons a rest ih =>
    rw [List.mapM_cons] at h
    obtain ⟨b, hb, h⟩ := bind_eq_ok_iff.1 h
    obtain ⟨others, hothers, h⟩ := bind_eq_ok_iff.1 h
    obtain rfl := pure_eq_ok_iff.1 h
    rw [List.map_cons, List.map_cons, hb, ih hothers]

/-- A step that gives a state from every state along a list leads to the state of the plain loop. -/
theorem foldlM_eq_ok_foldl {l : List α} {f : β → α → Except ε β} {g : β → α → β} (b : β)
    (h : ∀ a ∈ l, ∀ b, f b a = .ok (g b a)) : l.foldlM f b = .ok (l.foldl g b) := by
  induction l generalizing b with
  | nil => rfl
  | cons a rest ih =>
    rw [List.foldlM_cons, h a List.mem_cons_self, ok_bind,
      ih _ fun c hc => h c (List.mem_cons_of_mem _ hc)]
    rfl

/-- A step that gives a value everywhere along a list gives a list. -/
theorem exists_mapM_eq_ok {l : List α} {f : α → Except ε β} (h : ∀ a ∈ l, ∃ b, f a = .ok b) :
    ∃ bs, l.mapM f = .ok bs := by
  induction l with
  | nil => exact ⟨[], rfl⟩
  | cons a rest ih =>
    obtain ⟨b, hb⟩ := h a List.mem_cons_self
    obtain ⟨bs, hbs⟩ := ih fun c hc => h c (List.mem_cons_of_mem _ hc)
    exact ⟨b :: bs, by rw [List.mapM_cons, hb, ok_bind, hbs]; rfl⟩

/-- A step that gives a state from every state along a list leads to a state. -/
theorem exists_foldlM_eq_ok {l : List α} {f : β → α → Except ε β} (b : β)
    (h : ∀ a ∈ l, ∀ b, ∃ next, f b a = .ok next) : ∃ last, l.foldlM f b = .ok last := by
  induction l generalizing b with
  | nil => exact ⟨b, rfl⟩
  | cons a rest ih =>
    obtain ⟨next, hnext⟩ := h a List.mem_cons_self b
    obtain ⟨last, hlast⟩ := ih next fun c hc => h c (List.mem_cons_of_mem _ hc)
    exact ⟨last, by rw [List.foldlM_cons, hnext, ok_bind, hlast]⟩

/-- A step along a list gives as many values as the list has elements. -/
theorem length_of_mapM_eq_ok {l : List α} {f : α → Except ε β} {bs : List β}
    (h : l.mapM f = .ok bs) : bs.length = l.length := by
  induction l generalizing bs with
  | nil =>
    obtain rfl := Except.ok.inj h
    rfl
  | cons a rest ih =>
    rw [List.mapM_cons] at h
    obtain ⟨b, -, h⟩ := bind_eq_ok_iff.1 h
    obtain ⟨others, hothers, h⟩ := bind_eq_ok_iff.1 h
    obtain rfl := pure_eq_ok_iff.1 h
    rw [List.length_cons, List.length_cons, ih hothers]

/-- What every step along a list has of its element, the values have of the elements. -/
theorem map_of_mapM_eq_ok {γ : Type} {l : List α} {f : α → Except ε β} {g : β → γ} {h : α → γ}
    {bs : List β} (hstep : ∀ a ∈ l, ∀ b, f a = .ok b → g b = h a) (hbs : l.mapM f = .ok bs) :
    bs.map g = l.map h := by
  induction l generalizing bs with
  | nil =>
    obtain rfl := Except.ok.inj hbs
    rfl
  | cons a rest ih =>
    rw [List.mapM_cons] at hbs
    obtain ⟨b, hb, hbs⟩ := bind_eq_ok_iff.1 hbs
    obtain ⟨others, hothers, hbs⟩ := bind_eq_ok_iff.1 hbs
    obtain rfl := pure_eq_ok_iff.1 hbs
    rw [List.map_cons, List.map_cons, hstep a List.mem_cons_self b hb,
      ih (fun c hc => hstep c (List.mem_cons_of_mem _ hc)) hothers]

/-! ## Loops -/

/-- Steps that agree along a list give the same list. -/
theorem mapM_congr {l : List α} {f g : α → Except ε β} (h : ∀ a ∈ l, f a = g a) :
    l.mapM f = l.mapM g := by
  induction l with
  | nil => rfl
  | cons a rest ih =>
    rw [List.mapM_cons, List.mapM_cons, h a List.mem_cons_self,
      ih fun b hb => h b (List.mem_cons_of_mem _ hb)]

/-- Steps that agree along a list lead to the same state. -/
theorem foldlM_congr {l : List α} {f g : β → α → Except ε β} {b : β}
    (h : ∀ a ∈ l, ∀ b, f b a = g b a) : l.foldlM f b = l.foldlM g b := by
  induction l generalizing b with
  | nil => rfl
  | cons a rest ih =>
    rw [List.foldlM_cons, List.foldlM_cons, h a List.mem_cons_self b]
    cases g b a with
    | error e => rfl
    | ok next => exact ih fun c hc => h c (List.mem_cons_of_mem _ hc)

/-- The cells of a rectangle are those of its rows above the last, and those of the last row. -/
private theorem range_succ_mul (m n : Nat) :
    List.range ((m + 1) * n) = List.range (m * n) ++ (List.range n).map (m * n + ·) := by
  rw [Nat.succ_mul, List.range_add]

/-- A loop over the cells of a rectangle is a loop over its rows and columns. -/
theorem foldlM_range_mul (m n : Nat) (f : β → Nat → Except ε β) (b : β) :
    (List.range (m * n)).foldlM f b =
      (List.range m).foldlM (fun b i => (List.range n).foldlM (fun b j => f b (i * n + j)) b) b := by
  induction m with
  | zero => simp
  | succ m ih =>
    rw [range_succ_mul, List.foldlM_append, ih, List.range_succ, List.foldlM_append]
    refine congrArg _ (funext fun next => ?_)
    rw [List.foldlM_map, List.foldlM_cons]
    simp only [List.foldlM_nil, bind_pure]

/-- The values along the cells of a rectangle are the values along its rows, one behind the other. -/
theorem mapM_range_mul (m n : Nat) (f : Nat → Except ε β) :
    (List.range (m * n)).mapM f =
      ((List.range m).mapM fun i => (List.range n).mapM fun j => f (i * n + j)).map List.flatten := by
  induction m with
  | zero => simp [Except.map, pure, Except.pure]
  | succ m ih =>
    rw [range_succ_mul, List.mapM_append, ih, List.range_succ, List.mapM_append, List.mapM_map,
      List.mapM_cons]
    -- The rows above and the last row either give their values or end the loop
    cases (List.range m).mapM fun i => (List.range n).mapM fun j => f (i * n + j) with
    | error e => rfl
    | ok above =>
      show ((List.range n).mapM fun j => f (m * n + j)) >>= _ = _
      cases (List.range n).mapM fun j => f (m * n + j) with
      | error e => rfl
      | ok last => simp [Except.map, pure, Except.pure]

end Stencil
