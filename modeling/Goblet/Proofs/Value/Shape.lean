import Goblet.Store

/-!
# Values of a type

`Value.Shaped h v t` says that `v` is laid out as values of type `t` are, through the fields of structs, the elements of
slices and the entries of maps in the store `h`.

A value that may be stored somewhere has the shape that is wanted there, once an integer among floats is converted
(`Ty.accepts_shaped`). This asks that structs of one name have the same fields, and it asks so of structs without a name
too: any two of these are accepted for each other (`Ty.accepts_unnamed`).

The types of operations agree with the operations on values (`Ty.binaryResult_agrees`).
-/

namespace Goblet

open List

/-! ## Shapes -/

mutual

/-- The value is laid out as values of the type are. -/
def Value.Shaped (h : Store) (v : Value) : Ty → Prop
  | .unknown | .any => True
  | .nil => v = .nil
  | .bool => ∃ b, v = .bool b
  | .int => ∃ n, v = .int n
  | .float => ∃ x, v = .float x
  | .string => ∃ s, v = .str s
  | .slice e => v = .nil ∨ ∃ w, v = .slice w ∧ h.holds v = true ∧ ∀ x ∈ h.items w, x.Shaped h e
  | .map k e =>
    v = .nil ∨ ∃ m, v = .map m ∧ h.holds v = true ∧ ∀ x ∈ h.entries m, x.1.value.Shaped h k ∧ x.2.Shaped h e
  | .ptr _ => v = .nil ∨ (∃ a, v = .ref a) ∨ ∃ c, v = .heap c
  | .func .. => v = .nil ∨ (∃ e, v = .func e) ∨ ∃ n, v = .host n
  | .struct _ fs => ∃ vs, v = .struct vs ∧ Value.AllShaped h vs fs

/-- Values are laid out as the fields of a struct are. -/
def Value.AllShaped (h : Store) (vs : List Value) : List (String × Ty) → Prop
  | [] => vs = []
  | (_, t) :: fs => ∃ v us, vs = v :: us ∧ v.Shaped h t ∧ Value.AllShaped h us fs

end

variable {h : Store} {a b v : Value} {l r t dst src : Ty}

namespace Ty

mutual

theorem zero_shaped : ∀ t : Ty, t.zero.Shaped h t
  | .struct _ fs => by simp only [zero, Value.Shaped]; exact ⟨_, rfl, zeros_shaped fs⟩
  | .unknown | .any => trivial
  | .bool | .int | .float | .string => ⟨_, rfl⟩
  | .nil => rfl
  | .slice _ | .map _ _ | .ptr _ | .func .. => .inl rfl

theorem zeros_shaped : ∀ fs : List (String × Ty), Value.AllShaped h (zeros fs) fs
  | [] => rfl
  | (_, t) :: fs => ⟨_, _, rfl, zero_shaped t, zeros_shaped fs⟩

end

/-- The index of a field is valid in a struct of the shape, and leads to a value of the field's type. -/
theorem findField_shaped {name : String} : ∀ {fs : List (String × Ty)} {vs : List Value} {i : Nat} {t : Ty},
    Value.AllShaped h vs fs → findField name fs = some (i, t) → ∃ x, vs[i]? = some x ∧ x.Shaped h t
  | [], _, _, _, _, hf => by cases hf
  | (n, u) :: fs, vs, i, t, hvs, hf => by
    obtain ⟨v, us, rfl, hv, hus⟩ := hvs
    rw [findField] at hf
    split at hf
    · cases hf
      exact ⟨v, rfl, hv⟩
    · obtain ⟨⟨j, t⟩, hj, he⟩ := Option.map_eq_some_iff.mp hf
      cases he
      simpa using findField_shaped hus hj

/-! ## Assignability -/

/-- Slices, maps and pointers lead to no dynamic type. -/
def isStatic : Ty → Bool
  | .unknown | .any => false
  | .slice e | .ptr e => e.isStatic
  | .map k e => k.isStatic && e.isStatic
  | _ => true

/-- The structs that slices, maps and pointers lead to, by name. -/
def structs : Ty → List (String × List (String × Ty))
  | .struct n fs => [(n, fs)]
  | .slice e | .ptr e => e.structs
  | .map k e => k.structs ++ e.structs
  | _ => []

/-- Structs of one name have the same fields. -/
def Agree (a b : Ty) : Prop := ∀ p ∈ a.structs, ∀ q ∈ b.structs, p.1 = q.1 → p.2 = q.2

theorem not_isDynamic {a : Ty} (ha : a.isStatic = true) : ¬a.isDynamic = true := by
  cases a <;> first | exact Bool.false_ne_true | cases ha

theorem Agree.map {k e k' e' : Ty} (hm : (Ty.map k e).Agree (.map k' e')) : k.Agree k' ∧ e.Agree e' :=
  ⟨fun p hp q hq => hm p (mem_append_left _ hp) q (mem_append_left _ hq),
    fun p hp q hq => hm p (mem_append_right _ hp) q (mem_append_right _ hq)⟩

theorem Agree.struct {n m : String} {fs gs : List (String × Ty)} (hs : (Ty.struct n fs).Agree (.struct m gs))
    (hn : (n == m) = true) : Ty.struct n fs = .struct m gs := by
  obtain rfl : n = m := by simpa using hn
  exact congrArg _ (hs (n, fs) (.head _) (n, gs) (.head _) rfl)

theorem eq_of_identical {a b : Ty} (ha : a.isStatic = true) (hb : b.isStatic = true) (hab : a.Agree b)
    (hi : a.identical b = true) : a = b := by
  fun_induction identical a b with
  | case1 a b ih =>
    simp only [Bool.or_eq_true, beq_iff_eq] at hi
    rcases hi with ((he | hd) | hd) | hi
    · exact he
    · exact absurd hd (not_isDynamic ha)
    · exact absurd hd (not_isDynamic hb)
    · split at hi
      · exact hab.struct hi
      · exact congrArg _ (ih ha hb hab hi)
      · exact congrArg _ (ih ha hb hab hi)
      · simp only [isStatic, Bool.and_eq_true] at ha hb hi
        rw [ih.1 ha.1 hb.1 hab.map.1 hi.1, ih.2 ha.2 hb.2 hab.map.2 hi.2]
      · cases hi

/-- What may be stored where a type is wanted is of the type itself, or converted, or `nil` for what can be `nil`. -/
theorem accepts_cases (hd : dst.isStatic = true) (hs : src.isStatic = true) (hag : dst.Agree src)
    (ha : dst.accepts src = true) :
    dst = src ∨ dst = .float ∧ src = .int ∨ src = .nil ∧ ∀ h : Store, Value.nil.Shaped h dst := by
  simp only [accepts, Bool.or_eq_true, beq_iff_eq] at ha
  rcases ha with ((he | hdyn) | hdyn) | ha
  · exact .inl he
  · exact absurd hdyn (not_isDynamic hd)
  · exact absurd hdyn (not_isDynamic hs)
  · split at ha
    · exact .inr (.inl ⟨rfl, rfl⟩)
    iterate 4 exact .inr (.inr ⟨rfl, fun _ => .inl rfl⟩)
    · exact .inl (hag.struct ha)
    · exact .inl (congrArg _ (eq_of_identical hd hs hag ha))
    · exact .inl (congrArg _ (eq_of_identical hd hs hag ha))
    · simp only [isStatic, Bool.and_eq_true] at hd hs ha
      exact .inl (by rw [eq_of_identical hd.1 hs.1 hag.map.1 ha.1, eq_of_identical hd.2 hs.2 hag.map.2 ha.2])
    · cases ha

/-- A value that may be stored where a type is wanted has the shape of that type, once it is converted where it has to
be. The fields of the type are then valid in it and lead to values of their types. -/
theorem accepts_shaped (hd : dst.isStatic = true) (hs : src.isStatic = true) (hag : dst.Agree src)
    (hv : v.Shaped h src) (ha : dst.accepts src = true) :
    ∃ u, (if dst.needsFloat src then h.convert v dst = .ok (u, h) else u = v) ∧ u.Shaped h dst ∧
      ∀ vs, u = .struct vs → ∀ name i t, dst.field? name = some (i, t) → ∃ x, vs[i]? = some x ∧ x.Shaped h t := by
  have hfields {u : Value} (hu : u.Shaped h dst) : ∀ vs, u = .struct vs → ∀ name i t,
      dst.field? name = some (i, t) → ∃ x, vs[i]? = some x ∧ x.Shaped h t := by
    rintro vs rfl name i t hf
    cases dst with
    | struct n fs =>
      obtain ⟨us, he, hus⟩ := hu
      cases he
      exact findField_shaped hus hf
    | ptr e => simp [Value.Shaped] at hu
    | _ => cases hf
  rcases accepts_cases hd hs hag ha with rfl | ⟨rfl, rfl⟩ | ⟨rfl, hnil⟩
  · exact ⟨v, by cases dst <;> simp [needsFloat], hv, hfields hv⟩
  · obtain ⟨n, rfl⟩ := hv
    exact ⟨.float (.ofInt n), rfl, ⟨_, rfl⟩, fun vs he => by cases he⟩
  · obtain rfl := hv
    exact ⟨.nil, by simp [needsFloat], hnil h, hfields (hnil h)⟩

/-- An integer stored where a float is wanted is converted, and a nil stored where a struct pointer is wanted is not. -/
theorem accepts_shaped_int :
    let dst := Ty.ptr (.struct "P" [("x", .int), ("y", .string)])
    (∃ u, (if Ty.float.needsFloat .int then Store.empty.convert (.int 3) .float = .ok (u, .empty) else u = .int 3) ∧
      u.Shaped .empty .float ∧ ∀ vs, u = .struct vs → ∀ name i t, Ty.float.field? name = some (i, t) →
        ∃ x, vs[i]? = some x ∧ x.Shaped .empty t) ∧
    ∃ u, (if dst.needsFloat .nil then Store.empty.convert .nil dst = .ok (u, .empty) else u = .nil) ∧
      u.Shaped .empty dst ∧ ∀ vs, u = .struct vs → ∀ name i t, dst.field? name = some (i, t) →
        ∃ x, vs[i]? = some x ∧ x.Shaped .empty t :=
  ⟨accepts_shaped rfl rfl (by simp [Agree, structs]) ⟨3, rfl⟩ (by decide),
    accepts_shaped rfl rfl (by simp [Agree, structs]) rfl (by decide)⟩

/-- Two structs without a name are accepted for each other whatever their fields are. -/
theorem accepts_unnamed :
    let dst := Ty.struct "" [("a", .int)]
    let src := Ty.struct "" [("b", .string)]
    let v := Value.struct [.str "q"]
    dst.accepts src = true ∧ v.Shaped .empty src ∧ ¬v.Shaped .empty dst := by
  refine ⟨by decide, ⟨_, rfl, _, _, rfl, ⟨_, rfl⟩, rfl⟩, ?_⟩
  simp [Value.Shaped, Value.AllShaped]

/-! ## Operations -/

/-- The types whose values have no parts. -/
def scalars : List Ty := [.bool, .int, .float, .string]

end Ty

namespace Value

variable {op : BinOp}

theorem intOp_cases (hop : op.isComparison = false) (x y : Int64) :
    (∃ z, intOp op x y = .ok z) ∨ intOp op x y = .error .divisionByZero ∨ intOp op x y = .error .negativeShift := by
  cases op with
  | eql | neq | lss | leq | gtr | geq => cases hop
  | quo | rem =>
    by_cases hy : y = 0
    · exact .inr (.inl (if_pos hy))
    · exact .inl ⟨_, if_neg hy⟩
  | shl | shr =>
    by_cases hy : y < 0
    · exact .inr (.inr (if_pos hy))
    · exact .inl ⟨_, if_neg hy⟩
  | _ => exact .inl ⟨_, rfl⟩

/-- What an operation on values of two types comes to, given the type of its result. -/
def Agrees (h : Store) (op : BinOp) (l r : Ty) : Except Ty.Undefined Ty → Prop
  | .ok t => ∀ a b, a.Shaped h l → b.Shaped h r → (∃ v, binary op a b = .ok v ∧ v.Shaped h t) ∨
      l = .int ∧ r = .int ∧ (binary op a b = .error .divisionByZero ∨ binary op a b = .error .negativeShift)
  | .error _ => ∀ a b, a.Shaped h l → b.Shaped h r → ∃ o x y, binary op a b = .error (.mismatch o x y)

theorem agrees_int (hop : op.isComparison = false) : Agrees h op .int .int (Ty.binaryResult op .int .int) := by
  have hres : Ty.binaryResult op .int .int = .ok .int := by cases op <;> first | rfl | cases hop
  rw [hres]
  rintro _ _ ⟨x, rfl⟩ ⟨y, rfl⟩
  have hb : binary op (.int x) (.int y) = (intOp op x y).map .int := by simp [binary, hop]
  rw [hb]
  rcases intOp_cases hop x y with ⟨z, hz⟩ | hz | hz <;> rw [hz]
  · exact .inl ⟨_, rfl, _, rfl⟩
  · exact .inr ⟨rfl, rfl, .inl rfl⟩
  · exact .inr ⟨rfl, rfl, .inr rfl⟩

/-- Apart from integers, whether there is a result depends on the types alone. -/
theorem agrees_result (hl : l ∈ Ty.scalars) (hr : r ∈ Ty.scalars) : Agrees h op l r (Ty.binaryResult op l r) := by
  simp only [Ty.scalars, mem_cons, not_mem_nil, or_false] at hl hr
  rcases hl with rfl | rfl | rfl | rfl <;> rcases hr with rfl | rfl | rfl | rfl <;> cases op <;>
    first
      | exact agrees_int rfl
      | rintro _ _ ⟨x, rfl⟩ ⟨y, rfl⟩; first | exact .inl ⟨_, rfl, _, rfl⟩ | exact ⟨_, _, _, rfl⟩

end Value

/-- The type of an operation on booleans, numbers and texts is given exactly where no values of these types are a
mismatch for it. Then it gives a value of this type or, on integers only, fails by a division by zero or a shift by a
negative number. -/
theorem Ty.binaryResult_agrees (op : BinOp) (hl : l ∈ scalars) (hr : r ∈ scalars) (h : Store) :
    ((∃ t, binaryResult op l r = .ok t) ↔ ∀ a b : Value, a.Shaped h l → b.Shaped h r →
        ∀ o x y, Value.binary op a b ≠ .error (.mismatch o x y)) ∧
      ∀ t, binaryResult op l r = .ok t → ∀ a b : Value, a.Shaped h l → b.Shaped h r →
        (∃ v, Value.binary op a b = .ok v ∧ v.Shaped h t) ∨
          l = .int ∧ r = .int ∧
            (Value.binary op a b = .error .divisionByZero ∨ Value.binary op a b = .error .negativeShift) := by
  have hagrees : Value.Agrees h op l r (binaryResult op l r) := Value.agrees_result hl hr
  cases hres : binaryResult op l r with
  | ok t =>
    rw [hres] at hagrees
    refine ⟨⟨fun _ a b ha hb o x y he => ?_, fun _ => ⟨t, rfl⟩⟩, fun u hu => by cases hu; exact hagrees⟩
    rcases hagrees a b ha hb with ⟨v, hv, -⟩ | ⟨-, -, hv | hv⟩ <;> cases he.symm.trans hv
  | error e =>
    rw [hres] at hagrees
    obtain ⟨o, x, y, he⟩ := hagrees _ _ (zero_shaped l) (zero_shaped r)
    refine ⟨⟨fun ht => ?_, fun hno => absurd he (hno _ _ (zero_shaped l) (zero_shaped r) o x y)⟩, fun t ht => ?_⟩
    · obtain ⟨t, ht⟩ := ht
      cases ht
    · cases ht

/-- Shifts are defined on integers, and fail only for a negative number. -/
theorem Ty.binaryResult_agrees_shl :
    Ty.int ∈ scalars ∧ binaryResult .shl .int .int = .ok .int ∧ ∀ a b : Value, a.Shaped .empty .int →
      b.Shaped .empty .int → ∀ o x y, Value.binary .shl a b ≠ .error (.mismatch o x y) :=
  have hint : Ty.int ∈ scalars := .tail _ (.head _)
  ⟨hint, rfl, (binaryResult_agrees .shl hint hint .empty).1.mp ⟨.int, rfl⟩⟩

end Goblet
