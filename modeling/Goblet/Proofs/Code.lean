import Goblet.Code

/-!
# Programs that have grown

`p.Extends q` says that `q` has come from `p` by adding to it: the code and the data of `p` stand where they stood, and
the text constants that are new lie beyond the data of `p`. Whatever is done at or beyond the end of `p` keeps this
(`Extends.emit`, `Extends.replace`, `Extends.setOffset?`). Cutting `q` back to the sizes of `p` gives `p`
(`Extends.truncate`).
-/

namespace Goblet

/-- An instruction stands at an index. -/
def OpAt (code : Array Instr) (i : Nat) (o : Op) : Prop := ∃ p, code[i]? = some ⟨o, p⟩

end Goblet

namespace Goblet.Program

/-- What `p` holds stands at the same place in `q`. -/
structure Extends (p q : Program) : Prop where
  codeSize : p.code.size ≤ q.code.size
  code : ∀ i < p.code.size, q.code[i]? = p.code[i]?
  dataSize : p.data.size ≤ q.data.size
  data : ∀ i < p.data.size, q.data[i]? = p.data[i]?
  constants : ∃ more, q.constants = p.constants ++ more ∧ ∀ i ∈ more, p.data.size ≤ i

variable {p q : Program} {i : Nat} {rel : Int} {r : Program}

theorem Extends.refl (p : Program) : p.Extends p :=
  ⟨Nat.le_refl _, fun _ _ => rfl, Nat.le_refl _, fun _ _ => rfl, [], by simp, nofun⟩

theorem Extends.withCode (h : p.Extends q) {code : Array Instr} (hs : p.code.size ≤ code.size)
    (hc : ∀ i < p.code.size, code[i]? = p.code[i]?) : p.Extends { q with code := code } :=
  ⟨hs, hc, h.dataSize, h.data, h.constants⟩

theorem Extends.withEntry (h : p.Extends q) (n : Nat) : p.Extends { q with entry := n } :=
  ⟨h.codeSize, h.code, h.dataSize, h.data, h.constants⟩

theorem Extends.emit (h : p.Extends q) (op : Op) (pos : Pos) : p.Extends (q.emit op pos) := by
  refine h.withCode ?_ fun i hi => ?_
  · rw [Array.size_push]
    exact Nat.le_succ_of_le h.codeSize
  · have := h.codeSize
    rw [Array.getElem?_push_lt (by omega), ← h.code i hi, Array.getElem?_eq_getElem]

theorem Extends.replace (h : p.Extends q) (hi : p.code.size ≤ i) (f : Instr → Instr) :
    p.Extends { q with code := q.code.modify i f } := by
  refine h.withCode ?_ fun j hj => ?_
  · rw [Array.size_modify]
    exact h.codeSize
  · rw [Array.getElem?_modify, if_neg (by omega), h.code j hj]

theorem Extends.cut (h : p.Extends q) (hi : p.code.size ≤ i) : p.Extends { q with code := q.code.take i } := by
  have := h.codeSize
  refine h.withCode ?_ fun j hj => ?_
  · rw [Array.take_eq_extract, Array.size_extract]
    omega
  · rw [Array.take_eq_extract, Array.getElem?_extract, if_pos (by omega), Nat.zero_add, h.code j hj]

theorem setOffset?_eq (hr : q.setOffset? i rel = some r) :
    ∃ instr op, q.code[i]? = some instr ∧ instr.op.withOffset? rel = some op ∧
      r = { q with code := q.code.setIfInBounds i { instr with op := op } } := by
  obtain ⟨instr, hi, hr⟩ := Option.bind_eq_some_iff.mp hr
  obtain ⟨op, ho, hr⟩ := Option.bind_eq_some_iff.mp hr
  exact ⟨instr, op, hi, ho, (Option.some.inj hr).symm⟩

theorem Extends.setOffset? (h : p.Extends q) (hi : p.code.size ≤ i)
    (hr : q.setOffset? i rel = some r) : p.Extends r := by
  obtain ⟨instr, op, -, -, rfl⟩ := setOffset?_eq hr
  refine h.withCode ?_ fun j hj => ?_
  · rw [Array.size_setIfInBounds]
    exact h.codeSize
  · rw [Array.getElem?_setIfInBounds_ne (by omega), h.code j hj]

theorem Extends.alloc (h : p.Extends q) (v : Value) : p.Extends (q.alloc v).2 := by
  refine ⟨h.codeSize, h.code, ?_, fun i hi => ?_, h.constants⟩
  · have := h.dataSize
    simp only [Program.alloc, Array.size_push]
    omega
  · have := h.dataSize
    simp only [Program.alloc]
    rw [Array.getElem?_push_lt (by omega), ← h.data i hi, Array.getElem?_eq_getElem]

theorem Extends.store (h : p.Extends q) (hi : p.data.size ≤ i) (v : Value) :
    p.Extends { q with data := q.data.setIfInBounds i v } := by
  refine ⟨h.codeSize, h.code, ?_, fun j hj => ?_, h.constants⟩
  · rw [Array.size_setIfInBounds]
    exact h.dataSize
  · rw [Array.getElem?_setIfInBounds_ne (by omega), h.data j hj]

theorem Extends.textSlot (h : p.Extends q) (s : String) : p.Extends (q.textSlot s).2 := by
  unfold Program.textSlot
  split
  · exact h
  · have ha := h.alloc (.str s)
    obtain ⟨more, hm, hmore⟩ := h.constants
    refine ⟨ha.codeSize, ha.code, ha.dataSize, ha.data, more ++ [q.data.size], ?_, fun i hi => ?_⟩
    · simp only [Program.alloc, hm, List.append_assoc]
    · rcases List.mem_append.mp hi with hi | hi
      · exact hmore i hi
      · rw [List.mem_singleton.mp hi]
        exact h.dataSize

/-- An array that begins like another one, cut to its size, is the other one. -/
theorem take_eq_of_getElem? {α : Type} {a b : Array α} (hs : a.size ≤ b.size)
    (h : ∀ i < a.size, b[i]? = a[i]?) : b.take a.size = a := by
  refine Array.ext_getElem? fun i => ?_
  rw [Array.getElem?_extract]
  split
  · rw [Nat.zero_add]
    exact h i (by omega)
  · rw [Array.getElem?_eq_none (by omega)]

/-- **What was added can be taken back**: cut to the sizes it had, a program is what it was. -/
theorem Extends.truncate (h : p.Extends q) (hc : ∀ i ∈ p.constants, i < p.data.size) :
    { q.truncate p.code.size p.data.size with entry := p.entry } = p := by
  obtain ⟨more, hm, hmore⟩ := h.constants
  have hconst : q.constants.filter (· < p.data.size) = p.constants := by
    rw [hm, List.filter_append, List.filter_eq_self.mpr fun i hi => by simpa using hc i hi,
      List.filter_eq_nil_iff.mpr fun i hi => by simpa using hmore i hi, List.append_nil]
  simp only [Program.truncate, take_eq_of_getElem? h.codeSize h.code, take_eq_of_getElem? h.dataSize h.data, hconst]

end Goblet.Program
