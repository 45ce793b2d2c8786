import Goblet.Proofs.Compile.Chunk
import Goblet.Proofs.Machine.Safety
import Goblet.Session

/-!
# Sessions in order

`Reachable` sessions come from a new one by evaluating chunks. They are all `InOrder`: memory and data have the same
size, and the symbols fit the data. `Grows s t` says that `t` holds what `s` did: its code, its data, and the places of
its variables and functions. One evaluation keeps the first and gives the second (`eval_inOrder`), so
every later session does (`Later.inOrder`).
-/

namespace Goblet

open List Compile

/-! ## The table with the names known everywhere -/

/-- A symbol that is neither variable nor function and has no place. -/
def Placeless (k : String) (s : Symbol) : Prop := ¬s.Stored ∧ s.addr = .unresolved ∧ (LitKey k → s.value.isSome)

variable {t : SymbolTable} {lo hi : Nat} {stream : List Step} {head rest : List Step}

theorem Tidy.plain (hn : t.Nodup) (h : ∀ k s, t.lookup? k = some s → Placeless k s) :
    Tidy (fun _ => False) t #[] [] where
  nodup := hn
  text _ hi := nomatch hi
  slot k s _ hk hi := nomatch (h k s hk).2.1.symm.trans hi
  apart k _ s _ _ hk _ hi _ := nomatch (h k s hk).2.1.symm.trans hi
  value k s _ hk hst _ := absurd hst (h k s hk).1
  lit k s hk := (h k s hk).2.2
  var k s hk hv := absurd (.inl hv) (h k s hk).1
  func k s hk hf := absurd (.inr hf) (h k s hk).1

theorem LitKey.slash {key : String} (h : LitKey key) : '/' ∈ key.toList := by
  obtain ⟨scope, n, -, rfl⟩ := h
  simp [String.toList_append]

namespace SymbolTable

/-- A table that entries are added to one by one holds only what was added. -/
theorem foldl_add {P : String → Symbol → Prop} : ∀ {l : List (String × Symbol)} {t : SymbolTable}, t.Nodup →
    (∀ k s, t.lookup? k = some s → P k s) → (∀ e ∈ l, P e.1 e.2) →
    (l.foldl (fun t e => t.add e.1 e.2) t).Nodup ∧
      ∀ k s, (l.foldl (fun t e => t.add e.1 e.2) t).lookup? k = some s → P k s
  | [], _, hn, ht, _ => ⟨hn, ht⟩
  | e :: l, t, hn, ht, hl => by
    rw [foldl_cons]
    refine foldl_add hn.add (fun k s hk => ?_) fun e' he' => hl e' (.tail _ he')
    rw [lookup?_add] at hk
    split at hk
    · cases hk
      subst k
      exact hl e (.head _)
    · exact ht k s hk

theorem predeclared_placeless (r : Registry) :
    (predeclared r).Nodup ∧ ∀ k s, (predeclared r).lookup? k = some s → Placeless k s := by
  have types : ∀ x ∈ basicTypes, '/' ∉ x.1.toList := by decide
  have builtins : ∀ b ∈ Builtin.all, '/' ∉ b.name.toList := by decide
  refine foldl_add nodup_nil (nofun) fun e he => ?_
  simp only [mem_append, mem_map, or_assoc] at he
  rcases he with ⟨x, hx, rfl⟩ | ⟨x, -, rfl⟩ | ⟨b, hb, rfl⟩ | ⟨b, -, rfl⟩
  · exact ⟨Symbol.not_stored nofun nofun, rfl, fun hl => absurd hl.slash (types x hx)⟩
  · exact ⟨Symbol.not_stored nofun nofun, rfl, fun _ => rfl⟩
  · exact ⟨Symbol.not_stored nofun nofun, rfl, fun hl => absurd hl.slash (builtins b hb)⟩
  · exact ⟨Symbol.not_stored nofun nofun, rfl, fun _ => rfl⟩

theorem predeclared_tidy (r : Registry) : Tidy (fun _ => False) (predeclared r) #[] [] :=
  .plain (predeclared_placeless r).1 (predeclared_placeless r).2

end SymbolTable

theorem Since.refl {data : Array Value} {texts : List Nat} {n : Nat}
    (h : Tidy (fun _ => False) t data texts) : Since t n t where
  old k s hk := by
    refine ⟨s, hk, fun hf => ?_, fun _ hst => ⟨hst, rfl⟩⟩
    rcases (h.func k s hk hf).2 with ⟨-, ho⟩ | ⟨e, i, hv, -⟩
    · exact ho.elim
    · rw [hv]
      rfl
  new k s i h0 hk _ := nomatch h0.symm.trans hk

/-! ## Programs and their exits -/

namespace Session

variable {s t : Session}

theorem withoutExit_emit (p : Program) (pos : Pos) : withoutExit (p.emit .exit pos) = p := by
  have hends : endsWithExit (p.emit .exit pos) = true := by simp [endsWithExit, Program.emit]
  unfold withoutExit
  rw [if_pos hends]
  simp [Program.emit]

theorem withoutExit_data (p : Program) : (withoutExit p).data = p.data := by unfold withoutExit; split <;> rfl

theorem withoutExit_constants (p : Program) : (withoutExit p).constants = p.constants := by
  unfold withoutExit; split <;> rfl

theorem withoutExit_entry (p : Program) : (withoutExit p).entry = p.entry := by unfold withoutExit; split <;> rfl

theorem withoutExit_code {p : Program} {i : Nat} (h : i < (withoutExit p).code.size) :
    (withoutExit p).code[i]? = p.code[i]? := by
  unfold withoutExit at h ⊢
  split
  · rename_i he
    rw [if_pos he, Array.size_pop] at h
    rw [Array.getElem?_pop, if_pos h]
  · rfl

/-! ## What every session satisfies -/

/-- Memory, data and symbols fit together. -/
structure InOrder (s : Session) : Prop where
  mem : s.mem.size = s.program.data.size
  loaded : s.loaded = s.program.data.size
  entry : s.program.entry ≤ s.nextStart
  tidy : Tidy (fun _ => False) s.symbols s.program.data s.program.constants

theorem new_inOrder (r : Registry) (l : Limits) : (new r l).InOrder :=
  ⟨rfl, rfl, Nat.zero_le _, SymbolTable.predeclared_tidy r⟩

/-- What `s` held is in `t`, at the same places. -/
structure Grows (s t : Session) : Prop where
  start : s.nextStart ≤ t.nextStart
  code : ∀ i < s.nextStart, t.program.code[i]? = s.program.code[i]?
  size : s.program.data.size ≤ t.program.data.size
  data : ∀ i < s.program.data.size, t.program.data[i]? = s.program.data[i]?
  /-- A key that meant something does so still, and means a variable or function only in the place it had. -/
  symbols : ∀ k u, s.symbols.lookup? k = some u → ∃ v, t.symbols.lookup? k = some v ∧
    (GlobalKey k ∨ FuncKey k → v.Stored → u.Stored ∧ v.addr = u.addr)

theorem Grows.refl (s : Session) : s.Grows s :=
  ⟨Nat.le_refl _, fun _ _ => rfl, Nat.le_refl _, fun _ _ => rfl, fun _ u hu => ⟨u, hu, fun _ h => ⟨h, rfl⟩⟩⟩

theorem Grows.congr {s' t' : Session} (h : s.Grows t) (hp : s'.program = s.program) (hs : s'.symbols = s.symbols)
    (hp' : t'.program = t.program) (hs' : t'.symbols = t.symbols) : s'.Grows t' := by
  obtain ⟨hstart, hcode, hsize, hdata, hsymbols⟩ := h
  exact ⟨by unfold nextStart; rw [hp, hp']; exact hstart, by unfold nextStart; rw [hp, hp']; exact hcode,
    by rw [hp, hp']; exact hsize, by rw [hp, hp']; exact hdata, by rw [hs, hs']; exact hsymbols⟩

theorem Grows.trans {u : Session} (h : s.Grows t) (h' : t.Grows u) : s.Grows u where
  start := Nat.le_trans h.start h'.start
  code i hi := (h'.code i (Nat.lt_of_lt_of_le hi h.start)).trans (h.code i hi)
  size := Nat.le_trans h.size h'.size
  data i hi := (h'.data i (Nat.lt_of_lt_of_le hi h.size)).trans (h.data i hi)
  symbols k a ha := by
    obtain ⟨b, hb, hab⟩ := h.symbols k a ha
    obtain ⟨c, hc, hbc⟩ := h'.symbols k b hb
    refine ⟨c, hc, fun hk hst => ?_⟩
    obtain ⟨hst', haddr⟩ := hbc hk hst
    exact ⟨(hab hk hst').1, haddr.trans (hab hk hst').2⟩

/-! ## One evaluation -/

/-- The stream of a chunk is declarations, and then steps that walk. -/
theorem shape_shaped {labels n : Nat} {source : String}
    (h : shape labels source = (.ok stream, n)) :
    ∃ head rest, stream = head ++ rest ∧ Stream.Shaped labels n head rest := by
  unfold shape at h
  split at h
  · cases h
  · rename_i toks hscan
    split at h
    · cases h
    · rename_i stream' n' hof
      cases h
      exact Stream.shaped_of_ofTokens hof (Token.named_of_scan hscan)

theorem InOrder.start (hs : s.InOrder) :
    Compile.At ⟨withoutExit s.program, s.symbols, [], fun _ => False, s.program.entry⟩ .kept
      (Compile.start s.symbols (withoutExit s.program) s.store) := by
  refine ⟨⟨.refl _, withoutExit_entry _, hs.entry, nofun, nofun, nofun,
    ?_, Since.refl hs.tidy, rfl, rfl, nofun⟩, fun ⟨_, h, _⟩ => (nomatch h)⟩
  simp only [Compile.start, withoutExit_data, withoutExit_constants]
  exact hs.tidy

/-- **A chunk that does not compile leaves the session as it was**, but for the exit. -/
theorem load_error (hs : s.InOrder) (hshaped : Stream.Shaped lo hi head rest)
    {e : CompileError} (h : s.load (head ++ rest) = (.error e, t)) :
    t = { s with program := (withoutExit s.program).emit .exit (endPos (head ++ rest)) } := by
  have hg := chunk_grounded (r := s.registry) hshaped _ hs.start
  unfold load Compiled.attempt at h
  dsimp only at h
  cases hr : chunk s.registry (head ++ rest) (start s.symbols (withoutExit s.program) s.store) with
  | ok a c => rw [hr] at h; cases h
  | error e' c =>
    rw [hr] at hg h
    cases h
    unfold rollback
    rw [hg.truncate fun i hi => ?_]
    rw [withoutExit_data]
    exact hs.tidy.text i (withoutExit_constants _ ▸ hi)

/-- The session with a stream that was compiled. -/
abbrev grown (s : Session) (stream : List Step) (c : CompileState) : Session := { s with
  program := c.program.emit .exit (endPos stream)
  symbols := c.symbols
  mem := Machine.loadData s.mem c.program.data s.loaded
  store := c.store
  loaded := c.program.data.size }

theorem chunk_of_load (h : s.load stream = (.ok (), t)) : ∃ c, t = s.grown stream c ∧
    chunk s.registry stream (start s.symbols (withoutExit s.program) s.store) = .ok () c := by
  unfold load Compiled.attempt at h
  dsimp only at h
  cases hr : chunk s.registry stream (start s.symbols (withoutExit s.program) s.store) with
  | error e c => rw [hr] at h; cases h
  | ok _ c =>
    rw [hr] at h
    cases h
    exact ⟨c, rfl, rfl⟩

/-- A load that succeeds only adds to the session. -/
theorem load_ok (hs : s.InOrder) (hshaped : Stream.Shaped lo hi head rest)
    (h : s.load (head ++ rest) = (.ok (), t)) : t.InOrder ∧ s.Grows t := by
  have hg := chunk_grounded (r := s.registry) hshaped _ hs.start
  obtain ⟨c, rfl, hr⟩ := chunk_of_load h
  rw [hr] at hg
  obtain ⟨e, hc, -⟩ := hg
  have hext : (withoutExit s.program).Extends c.program := hc.program
  have hsize := hext.dataSize
  rw [withoutExit_data] at hsize
  refine ⟨⟨?_, rfl, ?_, hc.tidy⟩, ⟨?_, fun i hi => ?_, hsize, fun i hi => ?_, fun k u hu => ?_⟩⟩
  · have := hs.mem
    have := hs.loaded
    simp only [Machine.loadData, Array.take_eq_extract, Array.size_append, Array.size_extract, Program.emit]
    omega
  · simp only [nextStart, withoutExit_emit]
    exact hc.entry ▸ hc.inside
  · simp only [nextStart, withoutExit_emit]
    exact hext.codeSize
  · have := hext.codeSize
    simp only [nextStart, Program.emit] at hi ⊢
    rw [Array.getElem?_push_lt (by omega), ← Array.getElem?_eq_getElem (by omega), hext.code i hi, withoutExit_code hi]
  · have := hext.data i (by rw [withoutExit_data]; exact hi)
    rw [withoutExit_data] at this
    exact this
  · obtain ⟨v, hv, -, hrest⟩ := hc.since.old k u hu
    exact ⟨v, hv, hrest⟩

/-- How evaluating a chunk ends: it is no program, it does not compile, or what it adds runs. -/
theorem eval_cases (hs : s.InOrder) (fuel : Nat) (source : String) :
    (∃ e n, (∀ c, e ≠ .compile c) ∧ (∀ c, e ≠ .runtime c) ∧
      s.eval fuel source = ⟨.error e, "", { s with labels := n }⟩) ∨
    (∃ e n pos, s.eval fuel source =
      ⟨.error (.compile e), "", { s with labels := n, program := (withoutExit s.program).emit .exit pos }⟩) ∨
    ∃ t start, t.InOrder ∧ s.Grows t ∧ s.eval fuel source = t.runFrom fuel start := by
  unfold eval
  split
  · rename_i e n hshape
    refine .inl ⟨e, n, ?_, ?_, rfl⟩ <;>
    · rintro c rfl
      unfold shape at hshape
      split at hshape
      · cases hshape
      · split at hshape <;> cases hshape
  · rename_i stream n hshape
    obtain ⟨head, rest, rfl, hshaped⟩ := shape_shaped hshape
    have hs' : { s with labels := n }.InOrder := ⟨hs.mem, hs.loaded, hs.entry, hs.tidy⟩
    dsimp only
    split
    · rename_i e t hload
      exact .inr (.inl ⟨e, n, _, by rw [load_error hs' hshaped hload]⟩)
    · rename_i t hload
      obtain ⟨hin, hgrows⟩ := load_ok hs' hshaped hload
      exact .inr (.inr ⟨t, _, hin, hgrows.congr rfl rfl rfl rfl, rfl⟩)

theorem InOrder.reexit (hs : s.InOrder) (n : Nat) (pos : Pos) :
    { s with labels := n, program := (withoutExit s.program).emit .exit pos }.InOrder ∧
      s.Grows { s with labels := n, program := (withoutExit s.program).emit .exit pos } := by
  have hdata := withoutExit_data s.program
  have hstart : nextStart { s with labels := n, program := (withoutExit s.program).emit .exit pos } = s.nextStart := by
    simp only [nextStart, withoutExit_emit]
  refine ⟨⟨hdata ▸ hs.mem, hdata ▸ hs.loaded, ?_, ?_⟩, ⟨hstart ▸ Nat.le_refl _, fun i hi => ?_, ?_, fun i _ => ?_,
    (Grows.refl s).symbols⟩⟩
  · rw [hstart]
    exact withoutExit_entry s.program ▸ hs.entry
  · have htidy := hs.tidy
    rw [← hdata, ← withoutExit_constants s.program] at htidy
    exact htidy
  · rw [← withoutExit_code hi]
    exact (Array.getElem?_push_lt hi).trans (Array.getElem?_eq_getElem hi).symm
  · exact hdata ▸ Nat.le_refl _
  · exact congrArg (·[i]?) hdata

/-- **One evaluation keeps the session in order** and what it holds. -/
theorem eval_inOrder (hs : s.InOrder) (fuel : Nat) (source : String) :
    (s.eval fuel source).session.InOrder ∧ s.Grows (s.eval fuel source).session := by
  rcases eval_cases hs fuel source with ⟨e, n, -, -, he⟩ | ⟨e, n, pos, he⟩ | ⟨t, start, ht, hgrows, he⟩
  · rw [he]
    exact ⟨⟨hs.mem, hs.loaded, hs.entry, hs.tidy⟩, (Grows.refl s).congr rfl rfl rfl rfl⟩
  · rw [he]
    exact hs.reexit n pos
  · rw [he]
    exact ⟨⟨(Machine.run_size ..).trans ht.mem, ht.loaded, ht.entry, ht.tidy⟩, hgrows.congr rfl rfl rfl rfl⟩

/-! ## Sequences of evaluations -/

/-- `t` comes from `s` by evaluating chunks. -/
inductive Later (s : Session) : Session → Prop
  | now : Later s s
  | eval {t : Session} (fuel : Nat) (source : String) : Later s t → Later s (t.eval fuel source).session

/-- A session that comes from a new one. -/
def Reachable (s : Session) : Prop := ∃ registry limits, (new registry limits).Later s

/-- Order is kept by every evaluation. -/
theorem Later.inOrder (h : s.Later t) (hs : s.InOrder) : t.InOrder ∧ s.Grows t := by
  induction h with
  | now => exact ⟨hs, .refl s⟩
  | eval fuel source _ ih =>
    have := eval_inOrder ih.1 fuel source
    exact ⟨this.1, ih.2.trans this.2⟩

/-- A session is in order from its start. -/
theorem Reachable.inOrder (h : s.Reachable) : s.InOrder := by
  obtain ⟨registry, limits, h⟩ := h
  exact (h.inOrder (new_inOrder registry limits)).1

/-- **What a chunk that compiles keeps holds of all sessions.** -/
theorem Reachable.keeps {P : Program → SymbolTable → Prop}
    (hnew : ∀ r l, P (withoutExit (new r l).program) (new r l).symbols)
    (hchunk : ∀ {r : Registry} {program : Program} {symbols : SymbolTable} {store : Store} {lo hi e : Nat}
    {head rest : List Step}
      {t : CompileState}, Stream.Shaped lo hi head rest →
      Compile.At ⟨program, symbols, [], fun _ => False, e⟩ .kept (start symbols program store) → P program symbols →
      chunk r (head ++ rest) (start symbols program store) = .ok () t → P t.program t.symbols)
    (h : s.Reachable) : P (withoutExit s.program) s.symbols := by
  obtain ⟨registry, limits, h⟩ := h
  induction h with
  | now => exact hnew registry limits
  | @eval s fuel source h ih =>
    have hs := (h.inOrder (new_inOrder registry limits)).1
    unfold eval
    split
    · exact ih
    · rename_i stream n hshape
      obtain ⟨head, rest, rfl, hshaped⟩ := shape_shaped hshape
      have hs' : { s with labels := n }.InOrder := ⟨hs.mem, hs.loaded, hs.entry, hs.tidy⟩
      dsimp only
      split
      · rename_i e t hload
        rw [load_error hs' hshaped hload, withoutExit_emit]
        exact ih
      · rename_i t hload
        obtain ⟨c, rfl, hr⟩ := chunk_of_load hload
        show P (withoutExit (c.program.emit .exit _)) c.symbols
        rw [withoutExit_emit]
        exact hchunk hshaped hs'.start ih hr

end Session

end Goblet
