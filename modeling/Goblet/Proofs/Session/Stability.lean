import Goblet.Proofs.Session

/-!
# Sessions are stable

A chunk that is no program or does not compile is taken back (`eval_rollback`). Over any sequence of evaluations code
and data only grow, and a variable or function keeps its slot and shares it with nothing (`later_stable`), so that a
dump does not depend on the order in which the symbols are listed (`Dump.take_perm`).
-/

namespace Goblet

open List

/-! ## Dumps and the order of symbols -/

namespace Dump

variable {t t' : SymbolTable} {owed : String → Prop} {data : Array Value}

theorem mem_globals {i : Nat} {key : String} {kind : DumpKind} {ty : Ty} (h : (i, key, kind, ty) ∈ globals t) :
    ∃ s, (key, s) ∈ t.entries ∧ s.Stored ∧ s.addr = .global i ∧ DumpKind.ofSymbol? s.kind = some kind ∧ s.ty = ty := by
  obtain ⟨⟨key', s⟩, hmem, he⟩ := mem_filterMap.mp (mem_mergeSort.mp h)
  dsimp only at he
  split at he
  · rename_i kind' i' hk ha
    cases he
    refine ⟨s, hmem, ?_, ha, hk, rfl⟩
    unfold DumpKind.ofSymbol? at hk
    split at hk
    · exact .inl ‹_›
    · exact .inr ‹_›
    · cases hk
  · cases he

/-- Where no two symbols share a slot, their records have one order, however the symbols are listed. -/
theorem globals_perm {texts : List Nat}
    (h : Tidy owed t data texts) (hp : t'.entries.Perm t.entries) : globals t' = globals t := by
  have hperm : (globals t').Perm (globals t) := by
    exact ((mergeSort_perm _ _).trans (hp.filterMap _)).trans (mergeSort_perm _ _).symm
  have hsorted (u : SymbolTable) : (globals u).Pairwise fun a b => a.1 ≤ b.1 := by
    unfold globals
    refine (pairwise_mergeSort (fun a b c hab hbc => ?_) (fun a b => ?_) _).imp fun h => by simpa using h
    · simp only [decide_eq_true_eq] at hab hbc ⊢
      exact Nat.le_trans hab hbc
    · simpa using Nat.le_total a.1 b.1
  refine hperm.eq_of_pairwise (fun a b ha hb hab hba => ?_) (hsorted t') (hsorted t)
  obtain ⟨i, k, kind, ty⟩ := a
  obtain ⟨j, l, kind', ty'⟩ := b
  obtain rfl : i = j := Nat.le_antisymm hab hba
  obtain ⟨s, hs, -, hi, hkind, rfl⟩ := mem_globals (hperm.subset ha)
  obtain ⟨u, hu, -, hj, hkind', rfl⟩ := mem_globals hb
  have hs := SymbolTable.lookup?_of_mem_entries h.nodup hs
  have hu := SymbolTable.lookup?_of_mem_entries h.nodup hu
  obtain rfl := h.apart k l s u i hs hu hi hj
  cases hs.symm.trans hu
  cases hkind.symm.trans hkind'
  rfl

/-- **A dump does not depend on the order in which symbols are listed**, where no two share a slot. -/
theorem take_perm {texts : List Nat}
    (h : Tidy owed t data texts) (hp : t'.entries.Perm t.entries) (store : Store) (mem : Array Value) :
    take t' store mem = take t store mem := by
  unfold take
  rw [globals_perm h hp]

end Dump

namespace Session

/-- Code as it was, with an exit at its end in place of the one it had, if it had one. -/
def ExitRenewed (before after : Array Instr) : Prop :=
  ∃ body pos, after = body.push ⟨.exit, pos⟩ ∧
    (before = body ∧ (∀ q, body.back? ≠ some ⟨.exit, q⟩) ∨ ∃ q, before = body.push ⟨.exit, q⟩)

theorem withoutExit_renewed (p : Program) (pos : Pos) : ExitRenewed p.code ((withoutExit p).emit .exit pos).code := by
  refine ⟨(withoutExit p).code, pos, rfl, ?_⟩
  unfold withoutExit
  split
  · rename_i he
    unfold endsWithExit at he
    split at he
    · rename_i q hb
      obtain ⟨body, hbody⟩ := Array.back?_eq_some_iff.mp hb
      exact .inr ⟨q, by rw [hbody, Array.pop_push]⟩
    · cases he
  · rename_i he
    refine .inl ⟨rfl, fun q hq => he ?_⟩
    unfold endsWithExit
    rw [hq]

/-! ## Rollback -/

/-- **A chunk that is no program or does not compile is taken back.** Data, text constants, entry, symbols and memory
are what they were. The code is what it was where the source could not be read; where it could not be compiled, the
code ends with a new exit. -/
theorem eval_rollback {s : Session} (hs : s.Reachable) (fuel : Nat) (source : String) {e : EvalError}
    (he : (s.eval fuel source).answer = .error e) (hr : ∀ r, e ≠ .runtime r) :
    let t := (s.eval fuel source).session
    t.program.data = s.program.data ∧ t.program.constants = s.program.constants ∧
      t.program.entry = s.program.entry ∧ t.symbols = s.symbols ∧ t.mem = s.mem ∧ t.loaded = s.loaded ∧
      (∀ c, e = .compile c → ExitRenewed s.program.code t.program.code) ∧
      ((∀ c, e ≠ .compile c) → t.program.code = s.program.code) := by
  rcases eval_cases hs.inOrder fuel source with ⟨e', n, hc, -, heq⟩ | ⟨e', n, pos, heq⟩ | ⟨t, start, -, -, heq⟩
  · rw [heq] at he ⊢
    cases he
    exact ⟨rfl, rfl, rfl, rfl, rfl, rfl, fun c h => absurd h (hc c), fun _ => rfl⟩
  · rw [heq] at he ⊢
    cases he
    exact ⟨withoutExit_data _, withoutExit_constants _, withoutExit_entry _, rfl, rfl, rfl,
      fun _ _ => withoutExit_renewed _ pos, fun h => absurd rfl (h e')⟩
  · -- what runs ends with a value, a runtime error, no more fuel or a crash
    rw [heq] at he
    unfold runFrom at he
    dsimp only at he
    split at he
    · cases he
    · cases he
      exact absurd rfl (hr _)
    · cases he
    · cases he

/-- A session in which a variable is declared. -/
def oneDeclared : Session := ((new .empty .standard).eval 9 "x := 7").session

/-- The variable stays, and what a chunk has declared before a name that means nothing is taken back with its code, its
text and its slots. -/
theorem eval_rollback_undefined : let e := oneDeclared.eval 9 "u := \"t\"\nv := x + y"
    (∃ c, e.answer = .error (.compile c)) ∧ oneDeclared.mem.size = 1 ∧
      e.session.program.data = oneDeclared.program.data ∧ e.session.symbols = oneDeclared.symbols ∧
      e.session.mem = oneDeclared.mem ∧ ExitRenewed oneDeclared.program.code e.session.program.code := by
  have hcompile : ∀ a : Answer, (a matches .error (.compile _)) = true → ∃ c, a = .error (.compile c) := by
    intro a ha
    split at ha
    · exact ⟨_, rfl⟩
    · cases ha
  obtain ⟨c, hc⟩ := hcompile (oneDeclared.eval 9 "u := \"t\"\nv := x + y").answer (by decide +kernel)
  have hs : oneDeclared.Reachable := ⟨_, _, .eval 9 "x := 7" .now⟩
  obtain ⟨hdata, -, -, hsymbols, hmem, -, hcode, -⟩ := eval_rollback hs 9 _ hc nofun
  exact ⟨⟨c, hc⟩, by decide +kernel, hdata, hsymbols, hmem, hcode c rfl⟩

/-- Source that cannot be read leaves the code without an exit, where there was none. -/
theorem exit_not_renewed_unread : ¬∀ (s : Session) (fuel : Nat) (source : String) (e : EvalError), s.Reachable →
    (s.eval fuel source).answer = .error e → (∀ r, e ≠ .runtime r) →
    ExitRenewed s.program.code (s.eval fuel source).session.program.code := by
  intro h
  obtain ⟨e, he⟩ : ∃ e, ((new .empty .standard).eval 0 "(").answer = .error (.lex e) := ⟨_, rfl⟩
  obtain ⟨body, pos, hbody, -⟩ := h (new .empty .standard) 0 "(" _ ⟨_, _, .now⟩ he fun r h => (nomatch h)
  have hempty : ((new .empty .standard).eval 0 "(").session.program.code = #[] := rfl
  rw [hempty] at hbody
  exact absurd (congrArg Array.size hbody) (by simp)

/-! ## Slots -/

theorem last_of_not_lt {s : Session} {i : Nat} {x : Instr} (hi : ¬i < s.nextStart)
    (hx : s.program.code[i]? = some x) : i + 1 = s.program.code.size ∧ x.op = .exit := by
  have hlt := (Array.getElem?_eq_some_iff.mp hx).1
  unfold nextStart withoutExit at hi
  split at hi
  · rename_i he
    rw [Array.size_pop] at hi
    have hlast : i = s.program.code.size - 1 := by omega
    refine ⟨by omega, ?_⟩
    unfold endsWithExit at he
    split at he
    · rename_i q hb
      rw [Array.back?, ← hlast, hx] at hb
      cases hb
      rfl
    · cases he
  · exact absurd hlt hi

theorem InOrder.key {s : Session} (hs : s.InOrder) {k : String} {u : Symbol} {i : Nat}
    (hk : s.symbols.lookup? k = some u) (hu : u.Stored) (hi : u.addr = .global i) : GlobalKey k ∨ FuncKey k :=
  hu.imp (fun hv => (hs.tidy.var k u hk hv).2 i hi) fun hf => (hs.tidy.func k u hk hf).1

/-- **Segments only grow and slots are stable**, over any sequence of evaluations, however they end. -/
theorem later_stable {s t : Session} (hs : s.Reachable) (ht : s.Later t) :
    (t.mem.size = t.loaded ∧ t.loaded = t.program.data.size) ∧
    (∀ (i : Nat) x, s.program.code[i]? = some x →
      t.program.code[i]? = some x ∨ i + 1 = s.program.code.size ∧ x.op = .exit) ∧
    (∀ (i : Nat) v, s.program.data[i]? = some v → t.program.data[i]? = some v) ∧
    (∀ k u v i, s.symbols.lookup? k = some u → u.Stored → u.addr = .global i →
      t.symbols.lookup? k = some v → v.Stored → v.addr = .global i) ∧
    (∀ k l u v i, t.symbols.lookup? k = some u → u.Stored → u.addr = .global i →
      t.symbols.lookup? l = some v → v.Stored → v.addr = .global i → k = l) ∧
    (∀ k u i, t.symbols.lookup? k = some u → u.Stored → u.addr = .global i →
      i ∉ t.program.constants ∧ ∀ ty, t.program.data[i]? ≠ some (.type ty)) ∧
    ∀ table : SymbolTable, table.entries.Perm t.symbols.entries → Dump.take table t.store t.globals = t.dump := by
  obtain ⟨hin, hgrows⟩ := ht.inOrder hs.inOrder
  refine ⟨⟨hin.mem.trans hin.loaded.symm, hin.loaded⟩, fun i x hx => ?_, fun i v hv => ?_, ?_, ?_, ?_, ?_⟩
  · by_cases hi : i < s.nextStart
    · exact .inl ((hgrows.code i hi).trans hx)
    · exact .inr (last_of_not_lt hi hx)
  · have hi := (Array.getElem?_eq_some_iff.mp hv).1
    exact (hgrows.data i hi).trans hv
  · intro k u v i hk hu hi hk' hv
    obtain ⟨v', hv', hrest⟩ := hgrows.symbols k u hk
    cases hk'.symm.trans hv'
    exact (hrest (hs.inOrder.key hk hu hi) hv).2.trans hi
  · intro k l u v i hk _ hi hl _ hj
    exact hin.tidy.apart k l u v i hk hl hi hj
  · intro k u i hk hu hi
    exact ⟨(hin.tidy.slot k u i hk hi).2, hin.tidy.value k u i hk hu hi⟩
  · intro table hp
    exact Dump.take_perm hin.tidy hp _ _

theorem later_stable_var : ∃ u, ((new .empty .standard).eval 100 "x := 1").session.symbols.lookup? "main/x" = some u ∧
    u.Stored ∧ u.addr = .global 0 ∧ ∀ v,
      (((new .empty .standard).eval 100 "x := 1").session.eval 100 "x = y").session.symbols.lookup? "main/x" = some v →
      v.Stored → v.addr = .global 0 := by
  have hx : (((new .empty .standard).eval 100 "x := 1").session.symbols.lookup? "main/x").map
      (fun u => (u.kind, u.addr)) = some (.var, .global 0) := by decide +kernel
  obtain ⟨u, hu, hkind⟩ := Option.map_eq_some_iff.mp hx
  obtain ⟨hvar, haddr⟩ := Prod.mk.inj hkind
  have h := later_stable (s := ((new .empty .standard).eval 100 "x := 1").session) ⟨_, _, .eval 100 "x := 1" .now⟩
    (.eval 100 "x = y" .now)
  exact ⟨u, hu, .inl hvar, haddr, fun v hv => h.2.2.2.1 "main/x" u v 0 hu (.inl hvar) haddr hv⟩

end Session

end Goblet
