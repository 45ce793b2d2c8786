import Goblet.Proofs.Value.Shape

/-!
# Assignability is a preorder

Structs are compared by their names alone, so whether types are identical is whether their outlines are the same, and
whether one accepts another depends on the outlines as well (`identical_iff`, `accepts_iff`). On types that lead to no
dynamic type acceptance is therefore reflexive and transitive (`accepts_preorder`).

Identical types accept each other (`identical_eq`), so acceptance could be asked of the parts of types in both
directions; that ends after as many steps as the types are large (`acceptsWithin_eq`).
-/

namespace Goblet.Ty

variable {a b c d s : Ty}

/-- The type without the fields of the structs that slices, maps and pointers lead to. -/
def outline : Ty → Ty
  | .struct n _ => .struct n []
  | .slice e => .slice e.outline
  | .ptr e => .ptr e.outline
  | .map k e => .map k.outline e.outline
  | t => t

theorem identical_iff (ha : a.isStatic = true) (hb : b.isStatic = true) :
    a.identical b = true ↔ a.outline = b.outline := by
  fun_induction identical a b with
  | case1 a b ih =>
    simp only [Bool.or_eq_true, beq_iff_eq, not_isDynamic ha, not_isDynamic hb, Bool.false_eq_true, or_false]
    split
    · simp only [struct.injEq, beq_iff_eq, outline, and_true, or_iff_right_iff_imp]
      exact And.left
    · rw [ih ha hb]
      simp only [slice.injEq, outline, or_iff_right_iff_imp]
      exact congrArg outline
    · rw [ih ha hb]
      simp only [ptr.injEq, outline, or_iff_right_iff_imp]
      exact congrArg outline
    · simp only [isStatic, Bool.and_eq_true] at ha hb
      rw [Bool.and_eq_true, ih.1 ha.1 hb.1, ih.2 ha.2 hb.2]
      simp only [map.injEq, outline, or_iff_right_iff_imp]
      exact fun h => ⟨congrArg outline h.1, congrArg outline h.2⟩
    · rename_i hs hl hp hm
      simp only [Bool.false_eq_true, or_false]
      refine ⟨congrArg outline, fun h => ?_⟩
      cases a <;> cases b <;> first
        | exact h
        | exact (hs _ _ _ _ rfl rfl).elim
        | exact (hl _ _ rfl rfl).elim
        | exact (hp _ _ rfl rfl).elim
        | exact (hm _ _ _ _ rfl rfl).elim
        | cases h

theorem identical_symm (h : a.identical b = true) : b.identical a = true := by
  fun_induction identical a b with
  | case1 a b ih =>
    simp only [Bool.or_eq_true, beq_iff_eq] at h
    rw [identical.eq_def]
    simp only [Bool.or_eq_true, beq_iff_eq]
    rcases h with ((he | hd) | hd) | h
    · exact .inl (.inl (.inl he.symm))
    · exact .inl (.inr hd)
    · exact .inl (.inl (.inr hd))
    · refine .inr ?_
      split at h
      · exact beq_iff_eq.mpr (beq_iff_eq.mp h).symm
      · exact ih h
      · exact ih h
      · rw [Bool.and_eq_true] at h ⊢
        exact ⟨ih.1 h.1, ih.2 h.2⟩
      · cases h

/-- Whether `nil` may be stored in the type. -/
def isNilable : Ty → Bool
  | .slice _ | .map _ _ | .ptr _ | .func .. => true
  | _ => false

theorem accepts_iff_identical : d.accepts s = true ↔
    d.identical s = true ∨ d = .float ∧ s = .int ∨ d.isNilable = true ∧ s = .nil := by
  rw [accepts.eq_def, identical.eq_def]
  cases d <;> cases s <;> simp [isNilable, isDynamic]

theorem identical_eq (a b : Ty) : a.identical b = (a.accepts b && b.accepts a) := by
  rw [Bool.eq_iff_iff, Bool.and_eq_true, accepts_iff_identical, accepts_iff_identical]
  refine ⟨fun h => ⟨.inl h, .inl (identical_symm h)⟩, fun ⟨h, h'⟩ => ?_⟩
  rcases h with h | ⟨rfl, rfl⟩ | ⟨hn, rfl⟩
  · exact h
  · exact identical_symm (by simpa [isNilable] using h')
  · exact identical_symm (by simpa [isNilable] using h')

/-- What may be stored where, by outlines. -/
def Admits (dst src : Ty) : Prop := dst = src ∨ dst = .float ∧ src = .int ∨ dst.isNilable = true ∧ src = .nil

theorem accepts_iff (hd : d.isStatic = true) (hs : s.isStatic = true) :
    d.accepts s = true ↔ Admits d.outline s.outline := by
  have hfloat : d.outline = .float ↔ d = .float := by cases d <;> simp [outline]
  have hint : s.outline = .int ↔ s = .int := by cases s <;> simp [outline]
  have hnil : s.outline = .nil ↔ s = .nil := by cases s <;> simp [outline]
  have hnilable : d.outline.isNilable = d.isNilable := by cases d <;> rfl
  rw [accepts_iff_identical, identical_iff hd hs, Admits, hfloat, hint, hnil, hnilable]

theorem Admits.trans (h : Admits a b) (h' : Admits b c) : Admits a c := by
  rcases h with rfl | ⟨rfl, rfl⟩ | ⟨hn, rfl⟩
  · exact h'
  · simp [Admits, isNilable] at h' ⊢
    exact .inr h'.symm
  · simp [Admits, isNilable] at h'
    exact .inr (.inr ⟨hn, h'.symm⟩)

/-! ## Asking in turn -/

/-- One question after the other, the second only if the first is answered with yes. -/
def bothWays (ask : Ty → Ty → Option Bool) (a b : Ty) : Option Bool := do
  if ← ask a b then ask b a else return false

/-- `accepts`, with the parts of types compared by `accepts` in both directions, to a depth. -/
def acceptsWithin : Nat → Ty → Ty → Option Bool
  | 0, _, _ => none
  | n + 1, dst, src =>
    if dst == src || dst.isDynamic || src.isDynamic then some true
    else
      match dst, src with
      | .float, .int | .slice _, .nil | .map _ _, .nil | .ptr _, .nil | .func _ _ _, .nil => some true
      | .struct n _, .struct m _ => some (n == m)
      | .slice a, .slice b | .ptr a, .ptr b => bothWays (acceptsWithin n) a b
      | .map k v, .map l w => do
        if ← bothWays (acceptsWithin n) k l then bothWays (acceptsWithin n) v w else return false
      | _, _ => some false

theorem bothWays_eq {n : Nat} (h : ∀ {a b : Ty}, sizeOf a + sizeOf b ≤ n → acceptsWithin n a b = some (a.accepts b))
    {a b : Ty} (hn : sizeOf a + sizeOf b ≤ n) : bothWays (acceptsWithin n) a b = some (a.identical b) := by
  rw [bothWays, h hn, h (Nat.add_comm .. ▸ hn), identical_eq]
  cases a.accepts b <;> rfl

theorem acceptsWithin_eq {n : Nat} : ∀ {dst src : Ty}, sizeOf dst + sizeOf src ≤ n →
    acceptsWithin n dst src = some (dst.accepts src) := by
  induction n with
  | zero =>
    intro dst src h
    cases dst <;> simp at h
  | succ n ih =>
    intro dst src h
    unfold acceptsWithin accepts
    split
    · rename_i hd
      rw [hd]
      rfl
    · rename_i hd
      rw [Bool.not_eq_true _ |>.mp hd, Bool.false_or]
      cases dst <;> cases src <;> try rfl
      case slice.slice a b => exact bothWays_eq ih (by simp at h; omega)
      case ptr.ptr a b => exact bothWays_eq ih (by simp at h; omega)
      case map.map k v l w =>
        simp only [map.sizeOf_spec] at h
        dsimp only
        rw [bothWays_eq ih (a := k) (b := l) (by omega), bothWays_eq ih (a := v) (b := w) (by omega)]
        cases k.identical l <;> rfl

/-- A type that leads to no dynamic type, but for the fields of structs and the signatures of functions. -/
abbrev Static := { t : Ty // t.isStatic = true }

/-- **Assignability is a preorder and identity an equivalence**, and identical types may stand for each other. Of any
two types, whether one accepts the other and whether they are identical is found by asking the one in terms of the
other. -/
theorem accepts_preorder :
    (∀ a : Static, a.1.accepts a = true) ∧
    (∀ a b c : Static, a.1.accepts b = true → b.1.accepts c = true → a.1.accepts c = true) ∧
    Equivalence (fun a b : Static => a.1.identical b = true) ∧
    (∀ a b c : Static, a.1.identical b = true → a.1.accepts c = b.1.accepts c ∧ c.1.accepts a = c.1.accepts b) ∧
    ∀ a b : Ty, a.identical b = (a.accepts b && b.accepts a) ∧
      ∃ k, ∀ n ≥ k, acceptsWithin n a b = some (a.accepts b) ∧
      bothWays (acceptsWithin n) a b = some (a.identical b) := by
  have hident (a b : Static) := identical_iff a.2 b.2
  have hacc (a b : Static) := accepts_iff a.2 b.2
  refine ⟨fun a => (hacc a a).mpr (.inl rfl), fun a b c h h' => ?_,
    ⟨fun a => ?_, fun h => identical_symm h, fun h h' => ?_⟩,
    fun a b c h => ?_, fun a b => ⟨identical_eq a b, sizeOf a + sizeOf b, fun n hn => ?_⟩⟩
  · exact (hacc a c).mpr (((hacc a b).mp h).trans ((hacc b c).mp h'))
  · exact (hident a a).mpr rfl
  · exact (hident _ _).mpr (((hident _ _).mp h).trans ((hident _ _).mp h'))
  · have ho := (hident a b).mp h
    simp only [Bool.eq_iff_iff, hacc, ho, and_self]
  · exact ⟨acceptsWithin_eq hn, bothWays_eq acceptsWithin_eq hn⟩

end Goblet.Ty
