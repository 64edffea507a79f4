import Mathlib
import Straightline.Code.Ty

/-!
# Types and how they are printed

Comparing types part by part is an equivalence, and types of known sorts are
equal just if they are printed alike (`equal_iff_text_eq`).

A printed type is best read from its end: the last character tells whether it is
a pointer, a function or one of the plain types, and what comes before it is
again a type, or a list of types up to the opening parenthesis. Read in this way
no printed type is the beginning of another (`isReadable_of_isKnown`), so
nothing is needed to tell where one ends. A type of unknown sort is printed
without its code, and is left out for that.
-/

namespace Straightline.Code.Ty

/-! ## Types of known sorts -/

mutual

/-- Whether a type and all its parts are of known sorts or left out. -/
def isKnown : Ty → Bool
  | .absent | .void | .i8 | .i32 => true
  | .ptr elem => isKnown elem
  | .func ret params => isKnown ret && areKnown params
  | .unknown _ => false

/-- Whether all of some types are of known sorts or left out. -/
def areKnown : List Ty → Bool
  | [] => true
  | t :: ts => isKnown t && areKnown ts

end

theorem areKnown_eq_all (ts : List Ty) : areKnown ts = ts.all isKnown := by
  induction ts with
  | nil => rfl
  | cons t ts ih => rw [areKnown, ih, List.all_cons]

theorem texts_eq_map (ts : List Ty) : texts ts = ts.map text := by
  induction ts with
  | nil => rfl
  | cons t ts ih => rw [texts, ih, List.map_cons]

/-! ## Printed types from their ends -/

/-- The printed form of a type, the last character first. -/
def backward (t : Ty) : List Char := t.text.toList.reverse

/-- What stands in front of a parameter, up to the return type. The parameters
before it are given last one first. -/
def backwardRest : List Ty → List Char
  | [] => ['(', ' ']
  | t :: ts => ' ' :: ',' :: (t.backward ++ backwardRest ts)

/-- What stands between the closing parenthesis and the return type, for the
parameters last one first. -/
def backwardParams : List Ty → List Char
  | [] => ['(', ' ']
  | t :: ts => t.backward ++ backwardRest ts

theorem backward_ptr (t : Ty) : (ptr t).backward = '*' :: t.backward := by
  simp [backward, text]

/-- In front of a parameter stand those before it and a comma, if there are any. -/
theorem backwardRest_reverse {ts : List Ty} (h : ts ≠ []) :
    backwardRest ts.reverse = ' ' :: ',' :: backwardParams ts.reverse := by
  cases hreverse : ts.reverse with
  | nil => exact absurd (List.reverse_eq_nil_iff.mp hreverse) h
  | cons t rest => rfl

theorem backwardParams_reverse (ts : List Ty) :
    backwardParams ts.reverse = (", ".intercalate (ts.map text)).toList.reverse ++
      ['(', ' '] := by
  induction ts using List.reverseRecOn with
  | nil => rfl
  | append_singleton ts t ih =>
    rw [List.reverse_append, List.reverse_singleton, List.singleton_append,
      backwardParams, List.map_append, List.map_singleton]
    by_cases hts : ts = []
    · subst hts
      simp [backwardRest, backward]
    · have hmap : ts.map text ≠ [] := by simpa using hts
      rw [backwardRest_reverse hts, ih,
        String.intercalate_append_of_ne_nil hmap (by simp),
        String.intercalate_singleton]
      simp [backward]

theorem backward_func (ret : Ty) (params : List Ty) :
    (func ret params).backward =
      ')' :: (backwardParams params.reverse ++ ret.backward) := by
  rw [backwardParams_reverse, backward, text, texts_eq_map]
  simp [backward]

/-- A printed type does not end with an opening parenthesis, as a list
without parameters does. -/
theorem exists_backward_eq_cons (t : Ty) : ∃ c cs, t.backward = c :: cs ∧ c ≠ '(' := by
  cases t with
  | ptr elem => exact ⟨_, _, backward_ptr elem, by decide⟩
  | func ret params => exact ⟨_, _, backward_func ret params, by decide⟩
  | _ => simp [backward, text]

/-! ## Reading a type from its end -/

/-- Whether a type can be told from any other of known sorts when its printed
form is read from the end, whatever comes next. -/
def IsReadable (t : Ty) : Prop :=
  ∀ (t' : Ty) (rest rest' : List Char), t'.isKnown = true →
    t.backward ++ rest = t'.backward ++ rest' → t = t' ∧ rest = rest'

theorem eq_of_backwardRest_append {ts ts' : List Ty} (hts : ∀ t ∈ ts, t.IsReadable)
    (hts' : ∀ t ∈ ts', t.isKnown = true) {rest rest' : List Char}
    (h : backwardRest ts ++ rest = backwardRest ts' ++ rest') :
    ts = ts' ∧ rest = rest' := by
  induction ts generalizing ts' with
  | nil =>
    cases ts' with
    | nil => simpa [backwardRest] using h
    | cons t' ts' => simp [backwardRest] at h
  | cons t ts ih =>
    cases ts' with
    | nil => simp [backwardRest] at h
    | cons t' ts' =>
      obtain ⟨hfirst, hmore⟩ := List.forall_mem_cons.mp hts
      obtain ⟨hfirst', hmore'⟩ := List.forall_mem_cons.mp hts'
      simp only [backwardRest, List.cons_append, List.cons.injEq, true_and,
        List.append_assoc] at h
      obtain ⟨rfl, hrest⟩ := hfirst t' _ _ hfirst' h
      obtain ⟨rfl, rfl⟩ := ih hmore hmore' hrest
      exact ⟨rfl, rfl⟩

theorem eq_of_backwardParams_append {ts ts' : List Ty}
    (hts : ∀ t ∈ ts, t.IsReadable) (hts' : ∀ t ∈ ts', t.isKnown = true)
    {rest rest' : List Char}
    (h : backwardParams ts ++ rest = backwardParams ts' ++ rest') :
    ts = ts' ∧ rest = rest' := by
  have apart (t : Ty) (cs cs' : List Char) : t.backward ++ cs ≠ '(' :: cs' := by
    obtain ⟨c, rest, hback, hc⟩ := t.exists_backward_eq_cons
    rw [hback, List.cons_append]
    intro heq
    exact hc (List.cons.inj heq).1
  cases ts with
  | nil =>
    cases ts' with
    | nil => simpa [backwardParams] using h
    | cons t' ts' =>
      rw [backwardParams, backwardParams, List.append_assoc] at h
      exact absurd h.symm (apart t' _ _)
  | cons t ts =>
    cases ts' with
    | nil =>
      rw [backwardParams, backwardParams, List.append_assoc] at h
      exact absurd h (apart t _ _)
    | cons t' ts' =>
      obtain ⟨hlast, hmore⟩ := List.forall_mem_cons.mp hts
      obtain ⟨hlast', hmore'⟩ := List.forall_mem_cons.mp hts'
      rw [backwardParams, backwardParams, List.append_assoc, List.append_assoc] at h
      obtain ⟨rfl, hrest⟩ := hlast t' _ _ hlast' h
      obtain ⟨rfl, rfl⟩ := eq_of_backwardRest_append hmore hmore' hrest
      exact ⟨rfl, rfl⟩

theorem isReadable_ptr {t : Ty} (ht : t.IsReadable) : (ptr t).IsReadable := by
  intro t' rest rest' hknown h
  rw [backward_ptr] at h
  cases t' with
  | ptr t' =>
    rw [backward_ptr, List.cons_append, List.cons_append, List.cons.injEq] at h
    obtain ⟨rfl, rfl⟩ := ht t' _ _ (by simpa [isKnown] using hknown) h.2
    exact ⟨rfl, rfl⟩
  | func => simp [backward_func] at h
  | unknown => cases hknown
  | _ => simp [backward, text] at h

theorem isReadable_func {ret : Ty} {params : List Ty} (hret : ret.IsReadable)
    (hparams : ∀ t ∈ params, t.IsReadable) : (func ret params).IsReadable := by
  intro t' rest rest' hknown h
  rw [backward_func] at h
  cases t' with
  | func ret' params' =>
    rw [isKnown, Bool.and_eq_true, areKnown_eq_all, List.all_eq_true] at hknown
    rw [backward_func, List.cons_append, List.cons_append, List.cons.injEq,
      List.append_assoc, List.append_assoc] at h
    obtain ⟨hreverse, hrest⟩ :=
      eq_of_backwardParams_append (fun t ht => hparams t (List.mem_reverse.mp ht))
      (fun t ht => hknown.2 t (List.mem_reverse.mp ht)) h.2
    obtain rfl := List.reverse_injective hreverse
    obtain ⟨rfl, rfl⟩ := hret ret' _ _ hknown.1 hrest
    exact ⟨rfl, rfl⟩
  | ptr => simp [backward_ptr] at h
  | unknown => cases hknown
  | _ => simp [backward, text] at h

mutual

/-- A plain type is read by its last character, and the others by their parts. -/
theorem isReadable_of_isKnown : (t : Ty) → t.isKnown = true → t.IsReadable
  | .absent, _ | .void, _ | .i8, _ | .i32, _ => by
    intro t' rest rest' hknown h
    cases t' with
    | ptr => simp [backward, text] at h
    | func => simp [backward, text] at h
    | unknown => cases hknown
    | _ => simp_all [backward, text]
  | .ptr elem, h =>
    isReadable_ptr (isReadable_of_isKnown elem (by simpa [isKnown] using h))
  | .func ret params, h => by
    rw [isKnown, Bool.and_eq_true] at h
    exact isReadable_func (isReadable_of_isKnown ret h.1)
      (isReadable_of_areKnown params h.2)

theorem isReadable_of_areKnown :
    (ts : List Ty) → areKnown ts = true → ∀ t ∈ ts, t.IsReadable
  | [], _ => by simp
  | t :: ts, h => by
    rw [areKnown, Bool.and_eq_true] at h
    exact List.forall_mem_cons.mpr ⟨isReadable_of_isKnown t h.1,
      isReadable_of_areKnown ts h.2⟩

end

theorem text_injective {a b : Ty} (ha : a.isKnown = true) (hb : b.isKnown = true)
    (h : a.text = b.text) : a = b := by
  have hback : a.backward ++ [] = b.backward ++ [] := by rw [backward, backward, h]
  exact (isReadable_of_isKnown a ha b [] [] hb hback).1

/-! ## Equality of types -/

/-- Comparing types part by part is an equivalence, and for types of known
sorts, nested in any way and with parts left out anywhere, it comes to
comparing what is printed. -/
theorem equal_iff_text_eq :
    Equivalence (fun a b : Ty => equal a b = true) ∧
      ∀ a b : Ty, a.isKnown = true → b.isKnown = true →
      (equal a b = true ↔ a.text = b.text) := by
  refine ⟨⟨equal_refl, ?_, ?_⟩, ?_⟩
  · intro a b hab
    rw [equal_iff] at hab ⊢
    exact hab.symm
  · intro a b c hab hbc
    rw [equal_iff] at hab hbc ⊢
    exact hab.trans hbc
  · intro a b ha hb
    rw [equal_iff]
    exact ⟨congrArg text, text_injective ha hb⟩

/-- A pointer to a function that takes a function, and a function like it
that returns a pointer. -/
theorem equal_iff_text_eq_swapped :
    let a : Ty := .ptr (.func (.ptr .absent) [.func .void [], .i8])
    let b : Ty := .func (.ptr (.ptr .absent)) [.func .void [], .i8]
    a.isKnown = true ∧ b.isKnown = true ∧ a.text = "<nil>* (void (), i8)*" ∧
      b.text = "<nil>** (void (), i8)" ∧ (equal a b = true ↔ a.text = b.text) := by
  refine ⟨by decide, by decide, by decide, by decide, ?_⟩
  exact equal_iff_text_eq.2 _ _ (by decide) (by decide)

example : equal (unknown 5) (unknown 6) = false ∧
    (unknown 5).text = (unknown 6).text := by
  decide

end Straightline.Code.Ty
