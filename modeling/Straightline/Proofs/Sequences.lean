import Mathlib

/-!
# Lists and computations in sequence

What the other modules use about lists and about computations that can fail,
whatever these are made of.

Computations in sequence succeed if each of them does (`bind_eq_ok`,
`mapM_eq_ok`). A list is cut in one way where a run of it ends
(`append_inj_of_run`), so also at the first and at the last place where
something stands. Two lists are in step if they are equally long and their
members are related one by one (`List.Forall₂`).
-/

namespace Straightline

/-! ## Computations that succeed -/

section
variable {ε α β : Type}

theorem bind_eq_ok {x : Except ε α} {next : α → Except ε β} {b : β} :
    x >>= next = .ok b ↔ ∃ a, x = .ok a ∧ next a = .ok b := by
  cases x with
  | error e => simp [Bind.bind, Except.bind]
  | ok a => simp [Bind.bind, Except.bind]

theorem mapM_eq_ok {step : α → Except ε β} {as : List α} {bs : List β}
    (h : as.mapM step = .ok bs) :
    List.Forall₂ (fun a b => step a = .ok b) as bs := by
  induction as generalizing bs with
  | nil =>
    cases h
    exact .nil
  | cons a as ih =>
    rw [List.mapM_cons] at h
    obtain ⟨b, hb, h⟩ := bind_eq_ok.mp h
    obtain ⟨bs, hbs, h⟩ := bind_eq_ok.mp h
    cases h
    exact .cons hb (ih hbs)

end

/-! ## Runs -/

section
variable {α : Type} {p : α → Bool}

/-- A run of one sort ends where the sort does. -/
theorem takeWhile_run {run rest : List α} (hrun : ∀ a ∈ run, p a = true)
    (hrest : ∀ a ∈ rest.head?, p a = false) : (run ++ rest).takeWhile p = run := by
  rw [List.takeWhile_append_of_pos hrun]
  cases rest with
  | nil => simp
  | cons a rest => simp [hrest a rfl]

theorem dropWhile_run {run rest : List α} (hrun : ∀ a ∈ run, p a = true)
    (hrest : ∀ a ∈ rest.head?, p a = false) : (run ++ rest).dropWhile p = rest := by
  rw [List.dropWhile_append_of_pos hrun]
  cases rest with
  | nil => rfl
  | cons a rest => simp [hrest a rfl]

theorem rtakeWhile_append_of_pos {l run : List α} (hrun : ∀ a ∈ run, p a = true) :
    (l ++ run).rtakeWhile p = l.rtakeWhile p ++ run := by
  rw [List.rtakeWhile, List.reverse_append,
    List.takeWhile_append_of_pos (by simpa using hrun)]
  simp [List.rtakeWhile]

/-- A list is cut in one way where a run of one sort ends. -/
theorem append_inj_of_run {x y u v : List α} (hx : ∀ a ∈ x, p a = true)
    (hy : ∀ a ∈ y, p a = true) (hu : ∀ a ∈ u.head?, p a = false)
    (hv : ∀ a ∈ v.head?, p a = false) (h : x ++ u = y ++ v) : x = y ∧ u = v := by
  have hxy := congrArg (List.takeWhile p) h
  rw [takeWhile_run hx hu, takeWhile_run hy hv] at hxy
  subst hxy
  exact ⟨rfl, List.append_cancel_left h⟩

end

section
variable {α : Type} [DecidableEq α] {a : α} {x y u v : List α}

theorem forall_mem_ne (hx : a ∉ x) : ∀ c ∈ x, decide (c ≠ a) = true :=
  fun _ hc => decide_eq_true fun heq => hx (heq ▸ hc)

/-- A list is cut in one way at the first place where something stands. -/
theorem append_cons_inj_of_first (hx : a ∉ x) (hy : a ∉ y)
    (h : x ++ a :: u = y ++ a :: v) : x = y ∧ u = v := by
  obtain ⟨hxy, hrest⟩ :=
    append_inj_of_run (forall_mem_ne hx) (forall_mem_ne hy) (by simp) (by simp) h
  exact ⟨hxy, (List.cons.inj hrest).2⟩

/-- A list is cut in one way at the last place where something stands. -/
theorem append_cons_inj_of_last (hu : a ∉ u) (hv : a ∉ v)
    (h : x ++ a :: u = y ++ a :: v) : x = y ∧ u = v := by
  -- Read from the back, the last place is the first one.
  have hback : u.reverse ++ a :: x.reverse = v.reverse ++ a :: y.reverse := by
    simpa using congrArg List.reverse h
  obtain ⟨huv, hxy⟩ := append_cons_inj_of_first (by simpa) (by simpa) hback
  exact ⟨List.reverse_inj.mp hxy, List.reverse_inj.mp huv⟩

end

/-! ## Lists in step -/

section
variable {α β γ : Type} {R : α → β → Prop} {S : β → γ → Prop} {T : α → γ → Prop}

theorem forall₂_comp (h : ∀ a b c, R a b → S b c → T a c) {as : List α}
    {bs : List β} {cs : List γ} (hR : List.Forall₂ R as bs)
    (hS : List.Forall₂ S bs cs) : List.Forall₂ T as cs := by
  induction hR generalizing cs with
  | nil =>
    cases hS
    exact .nil
  | cons hab _ ih =>
    cases hS with
    | cons hbc hrest => exact .cons (h _ _ _ hab hbc) (ih hrest)

theorem map_eq_of_forall₂ {as : List α} {bs : List β} {a' : α → γ} {b' : β → γ}
    (h : List.Forall₂ (fun a b => a' a = b' b) as bs) : as.map a' = bs.map b' := by
  induction h with
  | nil => rfl
  | cons hab _ ih => rw [List.map_cons, List.map_cons, hab, ih]

theorem forall₂_of_getElem? {as : List α} {bs : List β}
    (hlength : bs.length = as.length)
    (h : ∀ (k : Nat) a b, as[k]? = some a → bs[k]? = some b → R a b) :
    List.Forall₂ R as bs :=
  List.forall₂_iff_get.mpr ⟨hlength.symm, fun k hk hk' =>
    h k _ _ (List.getElem?_eq_getElem hk) (List.getElem?_eq_getElem hk')⟩

theorem forall₂_split {as as' : List α} {bs : List β}
    (h : List.Forall₂ R (as ++ as') bs) :
    ∃ bs₁ bs₂, bs = bs₁ ++ bs₂ ∧ List.Forall₂ R as bs₁ ∧ List.Forall₂ R as' bs₂ :=
  ⟨bs.take as.length, bs.drop as.length, (List.take_append_drop ..).symm,
    by simpa using List.forall₂_take as.length h,
    by simpa using List.forall₂_drop as.length h⟩

theorem exists_of_mem_right {as : List α} {bs : List β} (h : List.Forall₂ R as bs)
    {b : β} (hb : b ∈ bs) : ∃ a ∈ as, R a b := by
  induction h with
  | nil => cases hb
  | cons hab _ ih =>
    rcases List.mem_cons.mp hb with rfl | hb
    · exact ⟨_, List.mem_cons_self, hab⟩
    · obtain ⟨a, ha, hR⟩ := ih hb
      exact ⟨a, List.mem_cons_of_mem _ ha, hR⟩

theorem mem_zip_append_left {as as' : List α} {bs bs' : List β}
    (hlength : as.length = bs.length) {x : α × β} (h : x ∈ as.zip bs) :
    x ∈ (as ++ as').zip (bs ++ bs') := by
  rw [List.zip_append hlength]
  exact List.mem_append_left _ h

theorem mem_zip_append_right {as as' : List α} {bs bs' : List β}
    (hlength : as.length = bs.length) {x : α × β} (h : x ∈ as'.zip bs') :
    x ∈ (as ++ as').zip (bs ++ bs') := by
  rw [List.zip_append hlength]
  exact List.mem_append_right _ h

theorem mem_zip_map {as : List α} {bs : List β} (f : β → γ) {a : α} {b : β}
    (h : (a, b) ∈ as.zip bs) : (a, f b) ∈ as.zip (bs.map f) := by
  rw [List.zip_map_right]
  exact List.mem_map.mpr ⟨(a, b), h, rfl⟩

theorem flatten_map_singleton (as : List α) (f : α → β) :
    (as.map fun a => [f a]).flatten = as.map f := by
  rw [← List.flatMap_def, List.map_eq_flatMap]

end

end Straightline
