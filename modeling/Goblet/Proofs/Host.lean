import Goblet.Host.Library
import Goblet.Proofs.Store.Graph
import Goblet.Proofs.Store.Sound

/-!
# Honest host functions

A host function is honest if it makes up no references: for sound arguments it gives sound results, and what was sound
stays sound. It crashes only with reason (`Crash.Due`). The standard host functions are honest
(`Registry.standard_honest`): all they give is plain, except that `strings.Split` makes a new slice of texts, and they
crash only where a text has no end or is too long.
-/

namespace Goblet

open List Value

/-- There is reason for a crash: so many bytes are too many, or the value leads to one that contains itself. -/
def Crash.Due (h : Store) : Crash → Prop
  | .capacity bytes => limit ≤ bytes
  | .endless v => h.Endless v

/-- A reply has `P`; a crash, where `q` asks for it, has a reason. -/
def Replies {α : Type} (q : Prop) (h : Store) (P : α → Prop) : Except HostError α → Prop
  | .ok a => P a
  | .error (.message _) => True
  | .error (.crash c) => q → c.Due h

/-- A host function gives sound results for sound arguments and leaves what is sound sound. -/
def HostFn.Honest (R : Refs) (f : HostFn) : Prop :=
  ∀ (h : Store) (args : List Value), h.Sound R → (∀ v ∈ args, v.Sound R h) →
    Replies R.held h (fun reply => (∀ v : Value, v.Sound R h → v.Sound R reply.store) ∧ reply.store.Sound R ∧
      ∀ v ∈ reply.results, v.Sound R reply.store) (f.call h args)

/-- All functions of a registry are honest. -/
def Registry.Honest (R : Refs) (r : Registry) : Prop := ∀ name f, r.find? name = some f → f.Honest R

variable {R : Refs} {α β : Type} {result : Ty} {r : Registry} {name : String} {q : Prop} {h : Store}

/-! ## Texts -/

/-- A text is missing only with reason. -/
def Ends (h : Store) (x : Except Crash α) : Prop := ∀ c, x = .error c → c.Due h

namespace Ends

theorem ret (a : α) : Ends h (pure a) := nofun

/-- A text built in two steps ends if each does. -/
theorem bind {x : Except Crash α} {f : α → Except Crash β} (hx : Ends h x) (hf : ∀ a, Ends h (f a)) :
    Ends h (x >>= f) := by
  intro c hc
  cases x with
  | ok a => exact hf a c hc
  | error e => exact hx c (congrArg Except.error (Except.error.inj hc))

theorem mapM {f : Value → Except Crash α} (hf : ∀ v, Ends h (f v)) : ∀ vs : List Value, Ends h (vs.mapM f)
  | [] => .ret _
  | v :: vs => by
    rw [List.mapM_cons]
    exact .bind (hf v) fun _ => .bind (mapM hf vs) fun _ => .ret _

end Ends

namespace Format

theorem text_ends (v : Value) : Ends h (h.text v) := by
  intro c hc
  obtain ⟨rfl, hv⟩ := Store.text_error hc
  exact hv

theorem print_ends : ∀ vs : List Value, Ends h (print h vs)
  | [] => .ret _
  | [v] => text_ends v
  | v :: w :: vs => .bind (text_ends v) fun _ => .bind (print_ends (w :: vs)) fun _ => .ret _

theorem printLine_ends (vs : List Value) : Ends h (printLine h vs) := .bind (.mapM text_ends vs) fun _ => .ret _

theorem byVerb_ends (verb : Char) (places : Option Nat) (v : Value) : Ends h (byVerb h verb places v) := by
  unfold byVerb
  split
  · split
    · exact .ret _
    · exact .bind (text_ends v) fun _ => .ret _
  · exact .ret _
  · exact .ret _
  · exact .ret _
  · exact .bind (text_ends _) fun _ => .ret _
  · exact text_ends _

theorem applyVerb_ends (verb : Char) (places : Option Nat) (vs : List Value) :
    Ends h (applyVerb h verb places vs) := by
  unfold applyVerb
  split
  · exact .ret _
  · cases vs with
    | nil => exact .ret _
    | cons v vs => exact .bind (byVerb_ends verb places v) fun _ => .ret _

theorem extra_ends (vs : List Value) : Ends h (extra h vs) :=
  .bind (.mapM (fun v => .bind (text_ends v) fun _ => .ret _) vs) fun _ => .ret _

/-- A format string is followed to its end. -/
theorem printFrom_ends (r : Reading) (cs : List Char) (vs : List Value) : Ends h (printFrom h r cs vs) := by
  fun_induction printFrom h r cs vs with
  | case1 => exact extra_ends _
  | case2 => exact .bind (extra_ends _) fun _ => .ret _
  | case3 _ _ ih | case5 _ _ ih | case7 _ _ _ _ _ ih => exact ih
  | case4 _ _ _ _ ih => exact .bind ih fun _ => .ret _
  | case6 _ _ _ _ ih | case8 _ _ _ _ _ ih =>
    exact .bind (applyVerb_ends _ _ _) fun _ => .bind (ih _) fun _ => .ret _

end Format

/-! ## Replies -/

theorem Replies.bind {P : α → Prop} {Q : β → Prop} {x : Except HostError α} {f : α → Except HostError β}
    (hx : Replies q h P x) (hf : ∀ a, P a → Replies q h Q (f a)) : Replies q h Q (x >>= f) := by
  cases x with
  | ok a => exact hf a hx
  | error e =>
    cases e with
    | message s => exact trivial
    | crash c => exact hx

namespace Library

/-- A function of arguments, which may be of the wrong kind. -/
abbrev Reads (q : Prop) (h : Store) (x : Except HostError α) : Prop := Replies q h (fun _ => True) x

theorem stringArg_reads (args : List Value) (i : Nat) : Reads q h (stringArg args i) := by
  unfold stringArg
  split <;> exact trivial

theorem intArg_reads (args : List Value) (i : Nat) : Reads q h (intArg args i) := by
  unfold intArg
  split <;> exact trivial

theorem floatArg_reads (args : List Value) (i : Nat) : Reads q h (floatArg args i) := by
  unfold floatArg
  split <;> exact trivial

theorem shown_reads {x : Except Crash α} (hx : Ends h x) : Reads q h (shown x) := by
  cases x with
  | ok a => exact trivial
  | error c => exact fun _ => hx c rfl

theorem formatted_reads (args : List Value) : Reads q h (formatted h args) :=
  Replies.bind (stringArg_reads _ _) fun _ _ => shown_reads (Format.printFrom_ends _ _ _)

/-- A printer changes nothing but the output. -/
theorem printer_honest {params : List Ty} {text : Store → List Value → Except HostError String}
    (ht : ∀ h args, Reads R.held h (text h args)) : (printer name params text).Honest R :=
  fun h args hh _ => Replies.bind (ht h args) fun _ _ => ⟨fun _ hv => hv, hh, nofun⟩

/-- A function is honest if it only looks at its arguments and gives something plain. -/
theorem pureFn_honest {params : List Ty} {variadic : Bool}
    {f : Store → List Value → Except HostError Value} (hf : ∀ h args, Replies R.held h Plain (f h args)) :
    (pureFn name params result variadic f).Honest R := by
  refine fun h args hh _ => Replies.bind (hf h args) fun v hv => ⟨fun _ hv => hv, hh, fun u hu => ?_⟩
  rw [mem_singleton.mp hu]
  exact hv R h

theorem Reads.plain {x : Except HostError α} {g : α → Value} (hx : Reads q h x) (hg : ∀ a, (g a).Plain) :
    Replies q h Plain (do return g (← x)) := Replies.bind hx fun a _ => hg a

theorem onText_honest (name : String) (f : String → String) : (onText name f).Honest R :=
  pureFn_honest fun _ _ => (stringArg_reads _ _).plain fun _ => plain_str _

theorem onTexts_honest {f : String → String → Value} (hf : ∀ s t, (f s t).Plain) :
    (onTexts name result f).Honest R :=
  pureFn_honest fun _ _ => Replies.bind (stringArg_reads _ _) fun s _ => (stringArg_reads _ _).plain (hf s)

theorem onFloat_honest (name : String) (f : Double → Double) : (onFloat name f).Honest R :=
  pureFn_honest fun _ _ => (floatArg_reads _ _).plain fun _ => plain_float _

theorem split_honest (name : String) (sig : FuncType) : (HostFn.mk name sig split).Honest R := by
  refine fun h args hh _ => Replies.bind (stringArg_reads _ _) fun s _ =>
    Replies.bind (stringArg_reads _ _) fun t _ => ?_
  refine ⟨fun v hv => hv.grow (Store.push_grows _), Store.push_sound hh fun v hv => ?_, fun v hv => ?_⟩
  · obtain ⟨u, -, rfl⟩ := mem_map.mp (mem_toArray.mp hv)
    exact plain_str _ _ _
  · rw [mem_singleton.mp hv]
    exact .leaf fun _ => Store.newSlice_holds _

theorem join_plain (args : List Value) : Replies q h Plain (join h args) :=
  Replies.bind (stringArg_reads _ _) fun _ _ => (shown_reads (.mapM Format.text_ends _)).plain fun _ => plain_str _

theorem repeatText_plain (args : List Value) : Replies q h Plain (repeatText args) := by
  refine Replies.bind (intArg_reads _ _) fun n _ => ?_
  dsimp only
  split
  · exact trivial
  · refine Replies.bind (stringArg_reads _ _) fun s _ => ?_
    split
    · next hn => exact fun _ => hn
    · exact plain_str _

/-- The functions without a package are honest. -/
theorem everywhere_honest : ∀ f ∈ everywhere, f.Honest R := by
  intro f hf
  simp only [everywhere, mem_cons, not_mem_nil, or_false] at hf
  rcases hf with rfl | rfl
  · exact printer_honest fun _ _ => shown_reads (Format.print_ends _)
  · exact printer_honest fun _ _ => shown_reads (Format.printLine_ends _)

/-- So are those of the packages. -/
theorem packages_honest : ∀ p ∈ packages, ∀ f ∈ p.2, f.Honest R := by
  intro p hp f hf
  simp only [packages, mem_cons, not_mem_nil, or_false] at hp
  rcases hp with rfl | rfl | rfl | rfl <;> simp only [mem_cons, not_mem_nil, or_false] at hf
  · rcases hf with rfl | rfl | rfl | rfl | rfl
    · exact printer_honest fun _ _ => shown_reads (Format.print_ends _)
    · exact printer_honest fun _ _ => shown_reads (Format.printLine_ends _)
    · exact printer_honest fun _ _ => formatted_reads _
    · exact pureFn_honest fun _ _ => (shown_reads (Format.print_ends _)).plain fun _ => plain_str _
    · exact pureFn_honest fun _ _ => (formatted_reads _).plain fun _ => plain_str _
  · rcases hf with rfl | rfl | rfl | rfl | rfl | rfl | rfl | rfl | rfl | rfl
    · exact onText_honest _ _
    · exact onText_honest _ _
    · exact onText_honest _ _
    · exact onTexts_honest fun _ _ => plain_bool _
    · exact onTexts_honest fun _ _ => plain_bool _
    · exact onTexts_honest fun _ _ => plain_bool _
    · exact onTexts_honest fun _ _ => plain_int _
    · exact split_honest _ _
    · exact pureFn_honest fun _ _ => join_plain _
    · exact pureFn_honest fun _ _ => repeatText_plain _
  · rcases hf with rfl | rfl | rfl | rfl | rfl
    · exact onFloat_honest _ _
    · exact onFloat_honest _ _
    · exact onFloat_honest _ _
    · exact onFloat_honest _ _
    · exact pureFn_honest fun _ _ => Replies.bind (floatArg_reads _ _) fun _ _ =>
        (floatArg_reads _ _).plain fun _ => plain_float _
  · subst hf
    exact pureFn_honest fun _ _ => (intArg_reads _ _).plain fun _ => plain_str _

end Library

namespace Registry

/-- All functions that a registry binds are honest. -/
def AllHonest (R : Refs) (r : Registry) : Prop := ∀ b ∈ r.bindings, b.fn.Honest R

theorem AllHonest.honest (h : r.AllHonest R) : r.Honest R := by
  intro name f hf
  unfold find? at hf
  cases hb : r.bindings.find? (·.fn.name == name) with
  | none => rw [hb] at hf; cases hf
  | some b =>
    rw [hb] at hf
    cases hf
    exact h b (mem_of_find?_eq_some hb)

theorem AllHonest.cons (h : r.AllHonest R) {b : Binding} (hb : b.fn.Honest R) :
    AllHonest R ⟨b :: r.bindings⟩ := fun c hc => (mem_cons.mp hc).elim (fun he => he ▸ hb) (h c)

/-- Adding honest functions one after another keeps a registry honest. -/
theorem AllHonest.foldl {add : Registry → α → Registry} {xs : List α}
    (hadd : ∀ x ∈ xs, ∀ r : Registry, r.AllHonest R → (add r x).AllHonest R) :
    ∀ {r : Registry}, r.AllHonest R → (xs.foldl add r).AllHonest R := by
  induction xs with
  | nil => exact fun h => h
  | cons x xs ih =>
    exact fun {r} h => ih (fun y hy => hadd y (.tail _ hy)) (hadd x (.head _) r h)

/-- **The standard host functions are honest.** -/
theorem standard_honest : Registry.standard.Honest R := by
  refine AllHonest.honest (.foldl (fun p hp r hr => ?_) (.foldl (fun f hf r hr => ?_) ?_))
  · exact .foldl (fun f hf r hr => hr.cons (Library.packages_honest p hp f hf)) hr
  · exact hr.cons (Library.everywhere_honest f hf)
  · exact nofun

end Registry

end Goblet
