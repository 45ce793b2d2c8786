import Goblet.Proofs.Compile.Chunk
import Goblet.Proofs.Compile.Move.Declaration

/-!
# What one step of the compiler does

`Turn act p s t` says what the step `act` at `p` does to the state of the compiler, case by case: most steps are moves;
the others jump, set labels, open and close blocks and functions, or drop what an expression has left. Every step that
is carried out is such a turn (`advance_turn`), and so a run of the compiler over some steps (`Run`) is a sequence of
turns.
-/

namespace Goblet

/-- How many operands a step takes and how many it leaves, if that is all it does. -/
def Act.moves? : Act → Option (Nat × Nat)
  | .atom _ | .typeRef _ | .place _ => some (0, 1)
  | .binary _ | .index => some (2, 1)
  | .unary _ | .field _ | .range => some (1, 1)
  | .slice low high => some (1 + low.toNat + high.toNat, 1)
  | .composite _ len keys => some (keys.width len, 1)
  | .declare _ _ init => some (init.toNat, 0)
  | .define | .assign | .drop => some (1, 0)
  | .indexAssign => some (3, 0)
  | .fieldAssign _ | .derefAssign => some (2, 0)
  | .constant .. | .typeDef .. => some (0, 0)
  | .ret n => some (n, 0)
  | _ => none

namespace Compile

/-- The instruction of a conditional jump. -/
inductive Tests : Act → String → (Int → Op) → Prop
  | jumpTrue {l : String} : Tests (.jumpTrue l) l .jumpTrue
  | jumpFalse {l : String} : Tests (.jumpFalse l) l .jumpFalse
  | jumpSetTrue {l : String} : Tests (.jumpSetTrue l) l .jumpSetTrue
  | jumpSetFalse {l : String} : Tests (.jumpSetFalse l) l .jumpSetFalse

/-- What a step does. A name that is stored into belongs to the store. -/
inductive Turn : Act → Pos → CompileState → CompileState → Prop
  | move {act : Act} {p : Pos} {n m : Nat} {s t : CompileState} :
      act.moves? = some (n, m) → Move n m s t → Turn act p s t
  | call {argc : Nat} {spread : Bool} {p : Pos} {m : Nat} {s t : CompileState} :
      Calls argc spread p m s t ∨ Move (argc + 1) m s t ∧ (∀ key sig, s.stack.items.head? ≠ some (.func key sig)) →
      Turn (.call argc spread) p s t
  | goto {l : String} {p : Pos} {rel : Int} {s t : CompileState} : t.stack = s.stack → t.ops = s.ops ++ [.jump rel] →
      Leads s.ops.length (.label l) p s.setting t.setting rel → Turn (.goto l) p s t
  | test {act : Act} {l : String} {op : Int → Op} {p : Pos} {rel : Int} {v : Taken} {s t : CompileState} :
      Tests act l op →
      s.stack.items = v.operand :: t.stack.items → t.ops = s.ops ++ [op rel] →
      Leads s.ops.length (.label l) p s.setting t.setting rel → Turn act p s t
  | next {l : String} {key value : Option String} {define : Bool} {p : Pos} {kt vt : Ty} {rest : List Operand}
      {σ τ : Setting} {k v : Option Slot} {rel : Int} {s t : CompileState} : s.stack.items = .iter kt vt :: rest →
      t.stack = s.stack → Names s.setting σ → Names σ τ → (∀ slot, k = some slot → σ.Reach slot) →
      (∀ slot, v = some slot → τ.Reach slot) → t.ops = s.ops ++ [.next k v rel] →
      Leads s.ops.length (.label l) p τ t.setting rel → Turn (.next l key value define) p s t
  | label {l : String} {p : Pos} {s t : CompileState} : closes l s.funcs = false → l ∉ s.labels →
      t.stack = s.stack.forget → t.ops = s.ops → t.setting = { s.setting with
        labels := l :: s.labels
        symbols := s.symbols.addLabel l s.ops.length
        lastLabel := some s.ops.length } → Turn (.label l) p s t
  | enter {scope : String} {p : Pos} {s : CompileState} : Turn (.enter scope) p s { s with scopes := scope :: s.scopes }
  | leave {p : Pos} {s : CompileState} : Turn .leave p s { s with scopes := s.scopes.drop 1 }
  | mark {p : Pos} {s : CompileState} : Turn .mark p s { s with marks := s.stack.size :: s.marks }
  | discard {p : Pos} {height : Nat} {marks : List Nat} {os : List Operand} {s t : CompileState} :
      s.marks = height :: marks → s.stack.items = os ++ t.stack.items → os.length = s.stack.size - height →
      t.setting = { s.setting with marks := marks } →
      (t.ops = s.ops ++ if cellsOf os = [] then [] else [.pop (cellsOf os).length]) → Turn .discard p s t
  | body {key : String} {sig : Signature} {p : Pos} {f : FuncType} {skip : Option Nat} {ops : List Op} {n : Nat}
      {s u t : CompileState} : sig.Named → Opens key sig p s u f skip → Codes [] u t ops → Flow ops [] [] →
      t.funcs = ⟨key, f, n, s.ops.length + skip.toList.length, skip, s.stack.size, s.marks.length⟩ :: s.funcs →
      (∀ op ∈ ops, (∃ i, op = .new i) ∨ ∃ k : Nat, k < n ∧ op = .set (.local k)) → Turn (.body key sig) p s t
  | close {l : String} {p : Pos} {f : OpenFunc} {fs : List OpenFunc} {s t : CompileState} : l = f.key ++ "_end" →
      Ends s t f fs → Turn (.label l) p s t

variable {r : Registry} {s t : CompileState} {p : Pos} {l : String} {frames : List Frame}

theorem body_turn {key : String} {sig : Signature} (hn : sig.Named) (h : funcBegin key sig p s = .ok () t) :
    Turn (.body key sig) p s t := by
  obtain ⟨u, f, skip, hopens, h⟩ := funcBegin_ok h
  obtain ⟨data, slot, -, hset⟩ := hopens.setting
  have hfuncs : u.funcs = ⟨key, f, 0, s.ops.length + skip.toList.length, skip, s.stack.size,
    s.marks.length⟩ :: s.funcs :=
    congrArg Setting.funcs hset
  have hscope : u.setting.scope = key := by
    rw [hset]
    rfl
  have hnamed : ∀ n ty, (some n, ty) ∈ (sig.results.map (·.1)).zip f.results → IsWord n := by
    intro n ty hm
    obtain ⟨⟨name, e⟩, hr, he⟩ := List.mem_map.mp (List.of_mem_zip hm).1
    subst he
    exact hn n e (List.mem_append_right _ hr)
  obtain ⟨ops, n, hc, hflow, htf, -, hops⟩ := addResults_ok hfuncs hscope hnamed h
  exact .body hn hopens hc hflow htf hops

theorem label_turn (h : label l p s = .ok () t) : Turn (.label l) p s t := by
  rcases label_ok h with ⟨hcloses, f, fs, hends⟩ | ⟨hcloses, hnew, hstack, hops, hset⟩
  · refine .close ?_ hends
    rw [hends.funcs] at hcloses
    exact beq_iff_eq.mp hcloses
  · exact .label hcloses hnew hstack hops hset

theorem test_turn {act : Act} {op : Int → Op} (ht : Tests act l op)
    (h : (do popCondition p; jump (op 0) l p) s = .ok () t) : Turn act p s t := by
  obtain ⟨_, u, ⟨v, hs, hu⟩, h⟩ := seq_by popCondition_ok h
  have hop : (op 0).withOffset? 0 = some (op 0) := by cases ht <;> rfl
  obtain ⟨rel, op', hop', hstack, hops, hleads⟩ := jump_ok hop h
  have hop' : op' = op rel := by cases ht <;> cases hop' <;> rfl
  have huops : u.ops = s.ops := by rw [hu]; rfl
  have huset : u.setting = s.setting := by rw [hu]; rfl
  rw [huops, hop'] at hops
  rw [huops, huset] at hleads
  exact .test ht (by rw [hs, hstack]) hops hleads

theorem step_turn {act : Act} {called : Bool} (hact : act.Plain frames)
    (hscopes : frames ≠ [] → 1 < s.scopes.length) (h : step r called ⟨act, p⟩ s = .ok () t) : Turn act p s t := by
  replace h := ran h
  unfold step at h
  dsimp only at h
  split at h
  · exact .move rfl (constant_move h (.int _))
  · exact .move rfl (constant_move h (.float _))
  · exact .move rfl (constant_move h (.str _))
  · exact .move rfl (identifier_move hact h)
  · exact .move rfl (binary_move h)
  · exact .move rfl (unary_move h)
  · obtain ⟨m, hm⟩ := call_ok h
    exact .call hm
  · exact .move rfl (index_move h)
  · exact .move rfl (slice_move h)
  · exact .move rfl (field_move hact h)
  · exact .move rfl (composite_move h)
  · obtain ⟨ty, u, ⟨-, rfl⟩, h⟩ := seq_by resolveType_ok h
    exact .move rfl (pushOperand_move rfl rfl h)
  · exact .move rfl (declare_move hact h)
  · exact .move rfl (place_move hact h)
  · exact .move rfl (indexAssign_move h)
  · exact .move rfl (fieldAssign_move h)
  · exact .move rfl (derefAssign_move h)
  · exact .move rfl (constDecl_move hact.1 (hscopes hact.2) h)
  · exact .move rfl (typeDef_move hact.1 (hscopes hact.2) h)
  · exact hact.elim
  · exact hact.elim
  · exact hact.elim
  · exact .move rfl (ret_move h)
  · exact hact.elim
  · obtain ⟨rel, op', hop', hstack, hops, hleads⟩ :=
      jump_ok (show Op.withOffset? 0 (.jump 0) = some (.jump 0) from rfl) h
    cases hop'
    exact .goto hstack hops hleads
  · exact test_turn .jumpFalse h
  · exact test_turn .jumpTrue h
  · exact test_turn .jumpSetFalse h
  · exact test_turn .jumpSetTrue h
  · exact .move rfl (range_move h)
  · obtain ⟨kt, vt, rest, σ, τ, k, v, rel, hs, hstack, hn, hn', hk, hv, hops, hleads⟩ := next_ok hact.1 hact.2 h
    exact .next hs hstack hn hn' hk hv hops hleads
  · exact hact.elim
  · exact hact.elim
  · cases h
    exact .mark
  · obtain ⟨height, marks, os, hm, hs, hlen, hset, hops⟩ := discard_ok h
    exact .discard hm hs hlen hset hops
  · exact .move rfl (dropRange_move h)
  · exact hact.elim
  · exact hact.elim
  · cases h

/-- A step is the next one, with a name before a store as part of the store. -/
def Next (act : Act) (p : Pos) (l l' : List Step) : Prop :=
  l = ⟨act, p⟩ :: l' ∨ (act = .define ∨ act = .assign) ∧ ∃ n q, l = ⟨.ident n, q⟩ :: ⟨act, p⟩ :: l'

theorem Next.eq {act : Act} {l l' : List Step} (h : Next act p l l') (hd : act ≠ .define) (ha : act ≠ .assign) :
    l = ⟨act, p⟩ :: l' := h.resolve_right fun hs => hs.1.elim hd ha

/-- **What one step does.** -/
theorem advance_turn {heads : String → Prop} {l l' : List Step} (hw : Walk heads frames l)
    (hscopes : frames ≠ [] → 1 < s.scopes.length) (hl : l ≠ []) (h : advance r l s = .ok l' t) :
    ∃ act p, Next act p l l' ∧ Turn act p s t := by
  cases hw with
  | done => contradiction
  | @plain _ rest act p hact hrest =>
    rw [advance_cons fun _ _ => hrest.ne_store] at h
    obtain ⟨_, u, hstep, h⟩ := seq_ok.mp h
    cases h
    exact ⟨act, p, .inl rfl, step_turn hact hscopes hstep⟩
  | @define _ rest n p q hn hrest =>
    obtain ⟨_, u, hstep, h⟩ := seq_ok.mp h
    cases h
    exact ⟨.define, q, .inr ⟨.inl rfl, n, p, rfl⟩, .move rfl (define_move hn hstep)⟩
  | @assign _ rest n p q hn hrest =>
    obtain ⟨_, u, hstep, h⟩ := seq_ok.mp h
    cases h
    exact ⟨.assign, q, .inr ⟨.inr rfl, n, p, rfl⟩, .move rfl (assign_move hn hstep)⟩
  | enter hn hrest =>
    obtain ⟨_, u, hstep, h⟩ := seq_ok.mp h
    cases h
    cases hstep
    exact ⟨_, _, .inl rfl, .enter⟩
  | leave hrest =>
    obtain ⟨_, u, hstep, h⟩ := seq_ok.mp h
    cases h
    cases hstep
    exact ⟨_, _, .inl rfl, .leave⟩
  | body hkey hsig hrest =>
    obtain ⟨_, u, hstep, h⟩ := seq_ok.mp h
    cases h
    exact ⟨_, _, .inl rfl, body_turn hsig hstep⟩
  | close hrest =>
    obtain ⟨_, u, hstep, h⟩ := seq_ok.mp h
    cases h
    exact ⟨_, _, .inl rfl, label_turn hstep⟩
  | label hn _ hrest =>
    rw [advance_cons (s := ⟨.label _, _⟩) nofun] at h
    obtain ⟨_, u, hstep, h⟩ := seq_ok.mp h
    cases h
    exact ⟨_, _, .inl rfl, label_turn hstep⟩

end Compile

end Goblet
