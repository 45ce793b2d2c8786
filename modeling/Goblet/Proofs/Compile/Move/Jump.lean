import Goblet.Proofs.Code
import Goblet.Proofs.Compile.Setting

/-!
# Jumps

A jump leads to a label or to a function. Where that is known (`Setting.target?`), the jump gets its distance at once,
and else it is kept open (`Leads`). In the end every open jump gets its distance, in order (`closeJumps_patches`), if
what it leads to is there then (`finish_patches`).
-/

namespace Goblet

open List

/-- The entry of a function that has its body. -/
def SymbolTable.entry? (symbols : SymbolTable) (key : String) : Option Nat :=
  match (symbols.lookup? key).bind (·.value) with
  | some (.func entry) => some entry
  | _ => none

namespace Compile

/-- Where a jump leads, as far as it is known. -/
def Setting.target? (σ : Setting) : JumpTarget → Option Nat
  | .label name => if σ.labels.contains name then σ.symbols.label? name else none
  | .func key => σ.symbols.entry? key

/-- The jump at an index gets a distance, or is kept open. -/
inductive Leads (site : Nat) (target : JumpTarget) (p : Pos) (σ τ : Setting) : Int → Prop
  | now {i : Nat} : σ.target? target = some i → τ = σ → Leads site target p σ τ ((i : Int) - site)
  | late : σ.target? target = none → τ = { σ with jumps := σ.jumps ++ [⟨site, target, p⟩] } → Leads site target p σ τ 0

variable {s t : CompileState} {p : Pos} {op : Op} {name key : String} {o : Option Nat}

theorem patch_ok {i j : Nat} (h : patch i j s = .ok () t) :
    t.stack = s.stack ∧ t.setting = s.setting ∧
      (∀ op op', s.ops[i]? = some op → op.withOffset? ((j : Int) - i) = some op' → t.ops = s.ops.set i op') ∧
      ∀ k, k ≠ i → t.ops[k]? = s.ops[k]? := by
  rw [patch, modify_run] at h
  cases hq : s.program.setOffset? i ((j : Int) - i) with
  | some q =>
    simp only [hq] at h
    cases h
    obtain ⟨x, y, hx, hy, rfl⟩ := Program.setOffset?_eq hq
    refine ⟨rfl, rfl, fun op op' ho hop => ?_, fun k hk => ?_⟩
    · simp only [CompileState.ops, getElem?_map, Array.getElem?_toList, hx, Option.map_some, Option.some.injEq] at ho
      subst ho
      obtain rfl : y = op' := Option.some.inj (hy.symm.trans hop)
      simp only [CompileState.ops, Array.toList_setIfInBounds, map_set]
    · simp only [CompileState.ops, Array.toList_setIfInBounds, map_set]
      exact getElem?_set_ne (Ne.symm hk)
  | none =>
    simp only [hq] at h
    cases h
    refine ⟨rfl, rfl, fun op op' ho hop => ?_, fun _ _ => rfl⟩
    simp only [CompileState.ops, getElem?_map, Array.getElem?_toList] at ho
    obtain ⟨x, hx, rfl⟩ := Option.map_eq_some_iff.mp ho
    simp only [Program.setOffset?, hx, hop, Option.bind_eq_bind, Option.bind_some, Option.pure_def, reduceCtorEq] at hq

theorem labelAt?_ok (h : labelAt? name s = .ok o t) : o = s.setting.target? (.label name) ∧ s = t := by
  cases h
  exact ⟨rfl, rfl⟩

theorem entryOf?_ok (h : entryOf? key s = .ok o t) : o = s.setting.target? (.func key) ∧ s = t := by
  obtain ⟨r, u, hr, h⟩ := seq_ok.mp h
  cases hr
  split at h
  · rename_i e he
    cases h
    refine ⟨?_, rfl⟩
    change some e = match (s.symbols.lookup? key).bind (·.value) with
      | some (.func entry) => some entry
      | _ => none
    rw [he]
  · rename_i hne
    cases h
    refine ⟨?_, rfl⟩
    change none = match (s.symbols.lookup? key).bind (·.value) with
      | some (.func entry) => some entry
      | _ => none
    split
    · rename_i e he
      exact absurd he (hne e)
    · rfl

/-- What is done to an instruction that was just added, so that it leads somewhere. -/
theorem leads_of_emitted {target : JumpTarget} {u : CompileState} (hop : op.withOffset? 0 = some op)
    (hu : u = { s with program := s.program.emit op p }) (ho : o = u.setting.target? target)
    (h : (match o with
      | some i => patch s.ops.length i
      | none => modify fun (v : CompileState) => { v with jumps := v.jumps ++ [OpenJump.mk s.ops.length target p] }) u
        = .ok () t) :
    ∃ rel op', op.withOffset? rel = some op' ∧ t.stack = s.stack ∧ t.ops = s.ops ++ [op'] ∧
      Leads s.ops.length target p s.setting t.setting rel := by
  have hops : u.ops = s.ops ++ [op] := by rw [hu, ops_emit]
  have hset : u.setting = s.setting := by rw [hu]; rfl
  have hstack : u.stack = s.stack := by rw [hu]
  rw [hset] at ho
  cases o with
  | some i =>
    obtain ⟨hst, hse, hpatch, -⟩ := patch_ok h
    have hlast : u.ops[s.ops.length]? = some op := by rw [hops, getElem?_concat_length]
    obtain ⟨op', hop'⟩ : ∃ op', op.withOffset? ((i : Int) - s.ops.length) = some op' := by
      cases op <;> first | exact ⟨_, rfl⟩ | cases hop
    refine ⟨_, op', hop', hst.trans hstack, ?_, .now ho.symm (hse.trans hset)⟩
    rw [hpatch op op' hlast hop', hops, set_append_right _ _ (Nat.le_refl _), Nat.sub_self]
    rfl
  | none =>
    cases h
    refine ⟨0, op, hop, hstack, hops, .late ho.symm ?_⟩
    rw [← hset]
    rfl

theorem jump_ok (hop : op.withOffset? 0 = some op) (h : jump op name p s = .ok () t) :
    ∃ rel op', op.withOffset? rel = some op' ∧ t.stack = s.stack ∧ t.ops = s.ops ++ [op'] ∧
      Leads s.ops.length (.label name) p s.setting t.setting rel := by
  obtain ⟨i, u, ⟨rfl, hu⟩, h⟩ := seq_by emitSite_ok h
  obtain ⟨o, v, ⟨ho, rfl⟩, h⟩ := seq_by labelAt?_ok h
  exact leads_of_emitted hop hu ho h

theorem callTo_ok (h : (do callTo (← emitSite (.call 0) p) key p) s = .ok () t) :
    ∃ rel, t.stack = s.stack ∧ t.ops = s.ops ++ [.call rel] ∧
    Leads s.ops.length (.func key) p s.setting t.setting rel := by
  obtain ⟨i, u, ⟨rfl, hu⟩, h⟩ := seq_by emitSite_ok h
  obtain ⟨o, v, ⟨ho, rfl⟩, h⟩ := seq_by entryOf?_ok h
  have hcall : Op.withOffset? 0 (.call 0) = some (.call 0) := rfl
  obtain ⟨rel, op', hop', hstack, hops, hleads⟩ := leads_of_emitted hcall hu ho h
  cases hop'
  exact ⟨rel, hstack, hops, hleads⟩

/-! ## The end -/

theorem target_of_destination {j : OpenJump} {i : Nat} (h : destination j s = .ok i t) :
    s.setting.target? j.target = some i ∧ s = t := by
  replace h := ran h
  unfold destination at h
  split at h
  · rename_i name hname
    obtain ⟨o, u, ⟨ho, rfl⟩, h⟩ := seq_by labelAt?_ok h
    rw [hname, ← ho]
    cases o with
    | some i =>
      cases h
      exact ⟨rfl, rfl⟩
    | none => cases h
  · rename_i key hkey
    obtain ⟨o, u, ⟨ho, rfl⟩, h⟩ := seq_by entryOf?_ok h
    rw [hkey, ← ho]
    cases o with
    | some i =>
      cases h
      exact ⟨rfl, rfl⟩
    | none => cases h

/-- Open jumps, each at an index of its own, have their distances afterwards. -/
theorem closeJumps_patches {js : List OpenJump} (hd : js.Pairwise (·.site ≠ ·.site)) (h : closeJumps js s = .ok () t) :
    t.stack = s.stack ∧ t.setting = s.setting ∧ (∀ k, (∀ j ∈ js, k ≠ j.site) → t.ops[k]? = s.ops[k]?) ∧
      ∀ j ∈ js, ∃ i, s.setting.target? j.target = some i ∧
        ∀ op op', s.ops[j.site]? = some op → op.withOffset? ((i : Int) - j.site) = some op' →
          t.ops[j.site]? = some op' := by
  induction js generalizing s with
  | nil =>
    cases h
    exact ⟨rfl, rfl, fun _ _ => rfl, nofun⟩
  | cons j js ih =>
    obtain ⟨i, u, ⟨htarget, rfl⟩, h⟩ := seq_by target_of_destination h
    obtain ⟨_, u, ⟨hstack, hset, hsite, helse⟩, h⟩ := seq_by patch_ok h
    obtain ⟨hfirst, hd⟩ := pairwise_cons.mp hd
    obtain ⟨hstack', hset', helse', hsites⟩ := ih hd h
    refine ⟨hstack'.trans hstack, hset'.trans hset, fun k hk => ?_, fun j' hj' => ?_⟩
    · rw [helse' k fun j hj => hk j (mem_cons_of_mem _ hj), helse k (hk j mem_cons_self)]
    · rcases mem_cons.mp hj' with rfl | hj'
      · refine ⟨i, htarget, fun op op' ho hop => ?_⟩
        rw [helse' _ hfirst, hsite op op' ho hop,
          getElem?_set_self (List.getElem?_eq_some_iff.mp ho).1]
      · obtain ⟨i', hi', hop'⟩ := hsites j' hj'
        rw [hset] at hi'
        refine ⟨i', hi', fun op op' ho hop => hop' op op' ?_ hop⟩
        rw [helse _ (Ne.symm (hfirst j' hj'))]
        exact ho

theorem finish_patches (hd : s.jumps.Pairwise (·.site ≠ ·.site)) (h : finish s = .ok () t) :
    s.funcs = [] ∧ t.setting = { s.setting with jumps := [] } ∧
      (∀ k, (∀ j ∈ s.jumps, k ≠ j.site) → t.ops[k]? = s.ops[k]?) ∧
      ∀ j ∈ s.jumps, ∃ i, s.setting.target? j.target = some i ∧
        ∀ op op', s.ops[j.site]? = some op → op.withOffset? ((i : Int) - j.site) = some op' →
          t.ops[j.site]? = some op' := by
  replace h := read_ok h
  split at h
  · cases h
  · rename_i hfuncs
    obtain ⟨_, u, hset, h⟩ := seq_ok.mp h
    cases hset
    obtain ⟨-, hset, helse, hsites⟩ := closeJumps_patches hd h
    exact ⟨hfuncs, hset, helse, hsites⟩

end Compile

end Goblet
