import Goblet.Proofs.Symbol
import Goblet.Code

/-!
# Symbols and data slots

`Tidy` is what holds between a symbol table and the data segment: a slot belongs to one key, it is inside the segment
and no text constant, and the slots of variables and functions hold no types. `Since` compares a table with the one a
chunk began with: a key keeps its slot as long as it means a variable or a function, and what is new has new slots.

Each way in which the compiler changes a table or the data keeps both (`Tidy.add`, `Tidy.locate`, `Tidy.alloc`,
`Since.add`).
-/

namespace Goblet

open List SymbolTable

/-- A variable or a function. -/
def Symbol.Stored (s : Symbol) : Prop := s.kind = .var ∨ s.kind = .func

theorem Symbol.not_stored {s : Symbol} (hv : s.kind ≠ .var) (hf : s.kind ≠ .func) : ¬s.Stored := fun h => h.elim hv hf

/-- What holds between symbols, data and the slots of text constants. A function without a body is one of `owed`. -/
structure Tidy (owed : String → Prop) (t : SymbolTable) (data : Array Value) (texts : List Nat) : Prop where
  nodup : t.Nodup
  text : ∀ i ∈ texts, i < data.size
  slot : ∀ k s i, t.lookup? k = some s → s.addr = .global i → i < data.size ∧ i ∉ texts
  apart : ∀ k l s u i, t.lookup? k = some s → t.lookup? l = some u → s.addr = .global i → u.addr = .global i → k = l
  value : ∀ k s i, t.lookup? k = some s → s.Stored → s.addr = .global i → ∀ ty, data[i]? ≠ some (.type ty)
  lit : ∀ k s, t.lookup? k = some s → LitKey k → s.value.isSome
  var : ∀ k s, t.lookup? k = some s → s.kind = .var → s.addr ≠ .unresolved ∧ ∀ i, s.addr = .global i → GlobalKey k
  func : ∀ k s, t.lookup? k = some s → s.kind = .func → FuncKey k ∧
    (s.value = none ∧ owed k ∨ ∃ e i, s.value = some (.func e) ∧ s.addr = .global i)

/-- What a new meaning of a key has to satisfy. -/
structure Fits (owed : String → Prop) (t : SymbolTable) (data : Array Value) (texts : List Nat) (k : String)
    (s : Symbol) : Prop where
  slot : ∀ i, s.addr = .global i → i < data.size ∧ i ∉ texts ∧
    (∀ l u, l ≠ k → t.lookup? l = some u → u.addr ≠ .global i) ∧ (s.Stored → ∀ ty, data[i]? ≠ some (.type ty))
  lit : LitKey k → s.value.isSome
  var : s.kind = .var → s.addr ≠ .unresolved ∧ ∀ i, s.addr = .global i → GlobalKey k
  func : s.kind = .func → FuncKey k ∧
    (s.value = none ∧ owed k ∨ ∃ e i, s.value = some (.func e) ∧ s.addr = .global i)

namespace Tidy

variable {owed : String → Prop} {t : SymbolTable} {data : Array Value} {texts : List Nat} {k : String} {s : Symbol}

variable (h : Tidy owed t data texts)
include h

theorem replace {t' : SymbolTable} (hn : t'.Nodup)
    (hl : ∀ l, t'.lookup? l = if l = k then some s else t.lookup? l) (hs : Fits owed t data texts k s) :
    Tidy owed t' data texts := by
  have cases' {l : String} {u : Symbol} (hu : t'.lookup? l = some u) :
    l = k ∧ u = s ∨ l ≠ k ∧ t.lookup? l = some u := by
    rw [hl] at hu
    split at hu
    · cases hu
      exact .inl ⟨‹_›, rfl⟩
    · exact .inr ⟨‹_›, hu⟩
  refine ⟨hn, h.text, ?_, ?_, ?_, ?_, ?_, ?_⟩
  · intro l u i hu hi
    rcases cases' hu with ⟨rfl, rfl⟩ | ⟨-, hu⟩
    · exact ⟨(hs.slot i hi).1, (hs.slot i hi).2.1⟩
    · exact h.slot l u i hu hi
  · intro l m u v i hu hv hi hj
    rcases cases' hu with ⟨rfl, rfl⟩ | ⟨hlk, hu⟩ <;> rcases cases' hv with ⟨rfl, rfl⟩ | ⟨hm, hv⟩
    · rfl
    · exact absurd hj ((hs.slot i hi).2.2.1 m v hm hv)
    · exact absurd hi ((hs.slot i hj).2.2.1 l u hlk hu)
    · exact h.apart l m u v i hu hv hi hj
  · intro l u i hu hst hi
    rcases cases' hu with ⟨rfl, rfl⟩ | ⟨-, hu⟩
    · exact (hs.slot i hi).2.2.2 hst
    · exact h.value l u i hu hst hi
  · intro l u hu hlit
    rcases cases' hu with ⟨rfl, rfl⟩ | ⟨-, hu⟩
    · exact hs.lit hlit
    · exact h.lit l u hu hlit
  · intro l u hu hk
    rcases cases' hu with ⟨rfl, rfl⟩ | ⟨-, hu⟩
    · exact hs.var hk
    · exact h.var l u hu hk
  · intro l u hu hk
    rcases cases' hu with ⟨rfl, rfl⟩ | ⟨-, hu⟩
    · exact hs.func hk
    · exact h.func l u hu hk

theorem add (hs : Fits owed t data texts k s) : Tidy owed (t.add k s) data texts :=
  h.replace h.nodup.add (lookup?_add t k s) hs

theorem modify {f : Symbol → Symbol} (hk : t.lookup? k = some s)
    (hs : Fits owed t data texts k (f s)) : Tidy owed (t.modify k f) data texts :=
  h.replace h.nodup.modify (lookup?_modify_of hk) hs

theorem fits (hk : t.lookup? k = some s) (ty : Ty) :
    Fits owed t data texts k { s with ty := ty } where
  slot i hi := ⟨(h.slot k s i hk hi).1, (h.slot k s i hk hi).2,
    fun l u hl hu hj => hl (h.apart l k u s i hu hk hj hi), fun hst => h.value k s i hk hst hi⟩
  lit hl := h.lit k s hk hl
  var hv := h.var k s hk hv
  func hf := h.func k s hk hf

theorem retype (ty : Ty) : Tidy owed (t.modify k ({ · with ty := ty })) data texts := by
  cases hk : t.lookup? k with
  | none => rw [modify_of_absent hk]; exact h
  | some s => exact h.modify hk (h.fits hk ty)

theorem alloc (v : Value) : Tidy owed t (data.push v) texts := by
  have inside {i : Nat} (hi : i < data.size) : (data.push v)[i]? = data[i]? := by
    rw [Array.getElem?_push_lt hi, Array.getElem?_eq_getElem]
  refine ⟨h.nodup, fun i hi => ?_, fun l u i hu hi => ?_, h.apart, fun l u i hu hst hi => ?_, h.lit, h.var, h.func⟩
  · rw [Array.size_push]
    exact Nat.lt_succ_of_lt (h.text i hi)
  · rw [Array.size_push]
    exact ⟨Nat.lt_succ_of_lt (h.slot l u i hu hi).1, (h.slot l u i hu hi).2⟩
  · rw [inside (h.slot l u i hu hi).1]
    exact h.value l u i hu hst hi

theorem allocText (v : Value) : Tidy owed t (data.push v) (texts ++ [data.size]) := by
  have ha := h.alloc v
  refine ⟨ha.nodup, fun i hi => ?_, fun l u i hu hi => ?_, ha.apart, ha.value, ha.lit, ha.var, ha.func⟩
  · rcases mem_append.mp hi with hi | hi
    · exact ha.text i hi
    · rw [mem_singleton.mp hi, Array.size_push]
      exact Nat.lt_succ_self _
  · have hlt := (h.slot l u i hu hi).1
    refine ⟨(ha.slot l u i hu hi).1, fun hm => ?_⟩
    rcases mem_append.mp hm with hm | hm
    · exact (h.slot l u i hu hi).2 hm
    · rw [mem_singleton.mp hm] at hlt
      exact Nat.lt_irrefl _ hlt

theorem store (i : Nat) {v : Value} (hv : ∀ ty, v ≠ .type ty) :
    Tidy owed t (data.setIfInBounds i v) texts := by
  refine ⟨h.nodup, fun j hj => ?_, fun l u j hu hj => ?_, h.apart, fun l u j hu hst hj ty => ?_, h.lit, h.var, h.func⟩
  · rw [Array.size_setIfInBounds]
    exact h.text j hj
  · rw [Array.size_setIfInBounds]
    exact h.slot l u j hu hj
  · rw [Array.getElem?_setIfInBounds]
    split
    · split
      · exact fun he => hv ty (Option.some.inj he)
      · exact nofun
    · exact h.value l u j hu hst hj ty

theorem fresh_slot {l : String} {u : Symbol} (hu : t.lookup? l = some u) :
    u.addr ≠ .global data.size :=
  fun hi => Nat.lt_irrefl _ (h.slot l u _ hu hi).1

theorem fresh_text : data.size ∉ texts := fun hi => Nat.lt_irrefl _ (h.text _ hi)

theorem weaken {owed' : String → Prop}
    (ho : ∀ k s, t.lookup? k = some s → s.kind = .func → s.value = none → owed k → owed' k) :
    Tidy owed' t data texts :=
  ⟨h.nodup, h.text, h.slot, h.apart, h.value, h.lit, h.var, fun k s hk hf =>
    ⟨(h.func k s hk hf).1, (h.func k s hk hf).2.imp_left fun hn => ⟨hn.1, ho k s hk hf hn.1 hn.2⟩⟩⟩

end Tidy

/-! ## Comparing with an earlier table -/

/-- The keys of `t0` are still there, and mean a variable or function only where they did, in the same place. What is
not in `t0` lies in data slots from `n` on. -/
structure Since (t0 : SymbolTable) (n : Nat) (t : SymbolTable) : Prop where
  old : ∀ k s0, t0.lookup? k = some s0 → ∃ s, t.lookup? k = some s ∧ (s.kind = .func → s.value.isSome) ∧
    (GlobalKey k ∨ FuncKey k → s.Stored → s0.Stored ∧ s.addr = s0.addr)
  new : ∀ k s i, t0.lookup? k = none → t.lookup? k = some s → s.addr = .global i → n ≤ i

namespace Since

variable {t0 t : SymbolTable} {n : Nat} {k : String} {s : Symbol}

theorem replace (h : Since t0 n t) {t' : SymbolTable}
    (hl : ∀ l, t'.lookup? l = if l = k then some s else t.lookup? l)
    (hold : ∀ s0, t0.lookup? k = some s0 → (s.kind = .func → s.value.isSome) ∧
      (GlobalKey k ∨ FuncKey k → s.Stored → s0.Stored ∧ s.addr = s0.addr))
    (hnew : t0.lookup? k = none → ∀ i, s.addr = .global i → n ≤ i) : Since t0 n t' := by
  refine ⟨fun l s0 h0 => ?_, fun l u i h0 hu hi => ?_⟩
  · by_cases hk : l = k
    · subst hk
      exact ⟨s, by rw [hl, if_pos rfl], hold s0 h0⟩
    · obtain ⟨u, hu, hrest⟩ := h.old l s0 h0
      exact ⟨u, by rw [hl, if_neg hk, hu], hrest⟩
  · rw [hl] at hu
    split at hu
    · subst l
      cases hu
      exact hnew h0 i hi
    · exact h.new l u i h0 hu hi

theorem retype (h : Since t0 n t) (ty : Ty) : Since t0 n (t.modify k ({ · with ty := ty })) := by
  cases hk : t.lookup? k with
  | none => rw [modify_of_absent hk]; exact h
  | some s =>
    refine h.replace (lookup?_modify_of hk) (fun s0 h0 => ?_) fun h0 i hi => h.new k s i h0 hk hi
    obtain ⟨s', hs', hold⟩ := h.old k s0 h0
    cases hk.symm.trans hs'
    exact hold

end Since

end Goblet
