/-!
# Machine types

The types that machine code works on: bytes, 32-bit words, pointers and
functions. A type slot that was left empty (`absent`) and a type of no known
sort (`unknown`) are types here too, so that code put together by hand can be
printed, compared and refused.

`Ty.equal` compares types part by part; it decides equality (`equal_iff`).
-/

namespace Straightline.Code

/-- A machine type. -/
inductive Ty where
  | absent
  | void
  | i8
  | i32
  | ptr (elem : Ty)
  | func (ret : Ty) (params : List Ty)
  | unknown (code : Int)
deriving Repr, Inhabited

namespace Ty

mutual

/-- Whether two types are equal, part by part. -/
def equal : Ty → Ty → Bool
  | .absent, .absent => true
  | .void, .void => true
  | .i8, .i8 => true
  | .i32, .i32 => true
  | .ptr a, .ptr b => equal a b
  | .func r ps, .func r' ps' => equal r r' && equalAll ps ps'
  | .unknown n, .unknown m => n == m
  | _, _ => false

/-- Whether two lists of types are equal, member by member. -/
def equalAll : List Ty → List Ty → Bool
  | [], [] => true
  | a :: as, b :: bs => equal a b && equalAll as bs
  | _, _ => false

end

mutual

theorem equal_refl : (a : Ty) → equal a a = true
  | .absent | .void | .i8 | .i32 => rfl
  | .ptr a => by rw [equal]; exact equal_refl a
  | .func r ps => by rw [equal, equal_refl r, equalAll_refl ps]; rfl
  | .unknown n => by simp [equal]

theorem equalAll_refl : (as : List Ty) → equalAll as as = true
  | [] => rfl
  | a :: as => by rw [equalAll, equal_refl a, equalAll_refl as]; rfl

end

mutual

theorem eq_of_equal : {a b : Ty} → equal a b = true → a = b
  | .absent, b, h => by cases b <;> simp_all [equal]
  | .void, b, h => by cases b <;> simp_all [equal]
  | .i8, b, h => by cases b <;> simp_all [equal]
  | .i32, b, h => by cases b <;> simp_all [equal]
  | .unknown n, b, h => by cases b <;> simp_all [equal]
  | .ptr a, b, h => by
    cases b with
    | ptr b => rw [eq_of_equal (a := a) (b := b) (by simpa [equal] using h)]
    | _ => simp [equal] at h
  | .func r ps, b, h => by
    cases b with
    | func r' ps' =>
      simp only [equal, Bool.and_eq_true] at h
      rw [eq_of_equal h.1, eq_of_equalAll h.2]
    | _ => simp [equal] at h

theorem eq_of_equalAll : {as bs : List Ty} → equalAll as bs = true → as = bs
  | [], bs, h => by cases bs <;> simp_all [equalAll]
  | a :: as, bs, h => by
    cases bs with
    | nil => simp [equalAll] at h
    | cons b bs =>
      simp only [equalAll, Bool.and_eq_true] at h
      rw [eq_of_equal h.1, eq_of_equalAll h.2]

end

theorem equal_iff {a b : Ty} : equal a b = true ↔ a = b :=
  ⟨eq_of_equal, fun h => h ▸ equal_refl a⟩

instance : DecidableEq Ty := fun _ _ => decidable_of_iff _ equal_iff

mutual

/-- The printed form of a type. -/
def text : Ty → String
  | .absent => "<nil>"
  | .void => "void"
  | .i8 => "i8"
  | .i32 => "i32"
  | .ptr elem => text elem ++ "*"
  | .func ret params => text ret ++ " (" ++ ", ".intercalate (texts params) ++ ")"
  | .unknown _ => "?"

/-- The printed forms of a list of types. -/
def texts : List Ty → List String
  | [] => []
  | t :: ts => text t :: texts ts

end

end Ty

end Straightline.Code
