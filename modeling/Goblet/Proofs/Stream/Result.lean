import Goblet.Proofs.Stream.Phrase
import Goblet.Stream.Declaration

/-!
# Results of shaping

`Makes lo x P` says that what `x` gives where the next fresh name has the number `lo` satisfies `P`, together with the
number that the next one has then, and that nothing goes to the head of the chunk. There is a rule for each way to build
a shaping, and a lemma for each of its primitives: fresh names have the next number (`freshName_makes`), and the names
in a signature that is read are words (`Signature.named_of_read`).
-/

namespace Goblet

open List

open Token (AllNamed)

/-! ## Signatures -/

namespace ParamEntry

/-- The name of an entry, if it has one, is a word. -/
def Named : ParamEntry → Prop
  | .named n _ | .lone n => IsWord n
  | .bare _ => True

/-- A type with the name before it, if there is one. -/
def of (n : Option String) (t : TypeExpr) : ParamEntry :=
  match n with
  | some n => .named n t
  | none => .bare t

theorem carry_named {last : Pos} : ∀ {es : List ParamEntry} {ty : Option TypeExpr} {ps},
    carry last ty es = .ok ps → (∀ e ∈ es, e.Named) → ∀ n t, (some n, t) ∈ ps → IsWord n
  | [], _, _, h, _, n, t, hm => by
    cases h
    cases hm
  | e :: es, ty, ps, h, hs, n, t, hm => by
    have htail : ∀ e ∈ es, e.Named := fun e he => hs e (.tail _ he)
    have hhead : e.Named := hs e (.head _)
    have step {n' : String} {t' : TypeExpr} (hn : IsWord n')
        (h : (do return (some n', t') :: (← carry last (some t') es)) = Except.ok ps) : IsWord n := by
      obtain ⟨qs, hr, h⟩ := bind_ok.mp h
      cases h
      rcases mem_cons.mp hm with hm | hm
      · cases hm; exact hn
      · exact carry_named hr htail n t hm
    cases e with
    | named n' t' => exact step hhead h
    | lone n' =>
      cases ty with
      | none => cases h
      | some t' => exact step hhead h
    | bare t' => cases h

theorem params_named {last : Pos} {es : List ParamEntry} {ps} (h : params last es = .ok ps) (hs : ∀ e ∈ es, e.Named)
    (n : String) (t : TypeExpr) (hm : (some n, t) ∈ ps) : IsWord n := by
  unfold params at h
  split at h
  · cases hc : carry last none es.reverse with
    | error e => rw [hc] at h; cases h
    | ok qs =>
      rw [hc] at h
      cases h
      exact carry_named hc (fun e he => hs e (mem_reverse.mp he)) n t (mem_reverse.mp hm)
  · cases h
    obtain ⟨e, _, he⟩ := mem_map.mp hm
    cases he

end ParamEntry

namespace TypeExpr

variable {all : List Token → Except ParseError TypeExpr} {last : Pos} {toks : List Token}

theorem entryParts_named {rest : List Token} {n : String} (h : AllNamed toks)
    (he : entryParts toks = (some n, rest)) : IsWord n := by
  unfold entryParts at he
  split at he
  · split at he
    · cases he
    · cases he; exact h.head.word
  · cases he

theorem entries_named : ∀ {parts : List (List Token)} {es : List ParamEntry} {v : Bool},
    entries all last parts = .ok (es, v) → (∀ part ∈ parts, AllNamed part) → ∀ e ∈ es, e.Named
  | [], _, _, h, _, e, he => by
    cases h
    cases he
  | entry :: rest, es, v, h, hp, e, he => by
    have htail : ∀ part ∈ rest, AllNamed part := fun part hm => hp part (.tail _ hm)
    have hhead : AllNamed entry := hp entry (.head _)
    unfold entries at h
    split at h
    · exact absurd ‹_ = []› (by simp)
    · rename_i n p rest' heq
      obtain ⟨rfl, rfl⟩ := List.cons.inj heq
      obtain ⟨r, hr, h⟩ := bind_ok.mp h
      cases h
      rcases mem_cons.mp he with rfl | he
      · exact hhead.head.word
      · exact entries_named hr htail e he
    · rename_i entry' rest' _ heq
      obtain ⟨rfl, rfl⟩ := List.cons.inj heq
      have named {t : TypeExpr} : (ParamEntry.of (entryParts entry).1 t).Named := by
        cases hn : (entryParts entry).1 with
        | some n => exact entryParts_named hhead (Prod.ext hn rfl)
        | none => exact trivial
      -- what is left once it is known whether the last entry is variadic
      have finish (x : Bool × List Token) (h : (do
          if x.2.isEmpty then throw ⟨.paramType, Token.posOr last entry⟩
          let t ← all x.2
          let r ← entries all last rest
          return (ParamEntry.of (entryParts entry).1 t :: r.1, x.1 || r.2)) = Except.ok (es, v)) : e.Named := by
        split at h
        · cases h
        obtain ⟨t, -, h⟩ := bind_ok.mp h
        obtain ⟨r, hr, h⟩ := bind_ok.mp h
        cases h
        rcases mem_cons.mp he with rfl | he
        · exact named
        · exact entries_named hr htail e he
      dsimp only at h
      split at h
      · split at h
        · exact finish _ h
        · cases h
      · exact finish _ h

theorem paramList_named {ps} {v : Bool} (h : paramList all last toks = .ok (ps, v))
    (hn : AllNamed toks) (n : String) (t : TypeExpr) (hm : (some n, t) ∈ ps) : IsWord n := by
  obtain ⟨es, he, h⟩ := bind_ok.mp h
  obtain ⟨qs, hp, h⟩ := bind_ok.mp h
  cases h
  exact ParamEntry.params_named hp
    (entries_named he fun part hpart => hn.withoutSemicolons.commaList hpart) n t hm

theorem resultList_named {ps} (h : resultList all last toks = .ok ps)
    (hn : AllNamed toks) (n : String) (t : TypeExpr) (hm : (some n, t) ∈ ps) : IsWord n := by
  obtain ⟨r, hr, h⟩ := bind_ok.mp h
  dsimp only at h
  split at h
  · cases h
  · cases h
    exact paramList_named hr hn n t hm

end TypeExpr

/-- A signature read has words for names. -/
theorem Signature.named_of_read {last : Pos} {params results : List Token} {sig : Signature}
    (h : Signature.read last params results = .ok sig) (hp : AllNamed params) (hr : AllNamed results) : sig.Named := by
  obtain ⟨ps, hps, h⟩ := bind_ok.mp h
  intro n t hm
  have split {rs : List (Option String × TypeExpr)} (hrs : ∀ n t, (some n, t) ∈ rs → IsWord n)
      (hsig : (⟨ps.1, rs, ps.2⟩ : Signature) = sig) : IsWord n := by
    subst hsig
    rcases mem_append.mp hm with hm | hm
    · exact TypeExpr.paramList_named hps hp n t hm
    · exact hrs n t hm
  dsimp only at h
  split at h
  · cases h
    exact split (by simp) rfl
  · obtain ⟨rs, hrs, h⟩ := bind_ok.mp h
    cases h
    exact split (TypeExpr.resultList_named hrs hr.head.inner) rfl
  · obtain ⟨rs, hrs, h⟩ := bind_ok.mp h
    cases h
    refine split (fun n t hm => ?_) rfl
    cases ht : TypeExpr.readAll last results with
    | error e => rw [ht] at hrs; cases hrs
    | ok u =>
      rw [ht] at hrs
      cases hrs
      cases mem_singleton.mp hm

/-! ## Results of shaping -/

namespace Shape

variable {α β : Type} {lo : Nat} {P : Nat → α → Prop} {Q : Nat → β → Prop} {cause : ParseCause}

/-- What `x` gives satisfies `P`, and it puts nothing to the head of the chunk. -/
def Makes (lo : Nat) (x : Shape α) (P : Nat → α → Prop) : Prop :=
  ∀ h, Triple (fun s => s.labels = lo ∧ s.hoisted = h) x
    (fun a s => (lo ≤ s.labels ∧ P s.labels a) ∧ s.hoisted = h) fun _ s => lo ≤ s.labels

namespace Makes

theorem ret {a : α} (h : P lo a) : Makes lo (pure a) P :=
  fun _ => Triple.ret fun _ hs => ⟨⟨Nat.le_of_eq hs.1.symm, hs.1 ▸ h⟩, hs.2⟩

theorem raise {e : ParseError} : Makes lo (throw e : Shape α) P :=
  fun _ => Triple.raise fun _ hs => Nat.le_of_eq hs.1.symm

variable {x : Shape α}

/-- What one reader made the next starts from. -/
theorem seq {f : α → Shape β} (hx : Makes lo x P)
    (hf : ∀ a m, lo ≤ m → P m a → Makes m (f a) Q) : Makes lo (x >>= f) Q := by
  intro h
  refine Triple.seq (hx h) fun a t ht => ?_
  have := hf a t.labels ht.1.1 ht.1.2 h t ⟨rfl, ht.2⟩
  revert this
  cases f a t with
  | ok b u => exact fun hu => ⟨⟨Nat.le_trans ht.1.1 hu.1.1, hu.1.2⟩, hu.2⟩
  | error e u => exact fun hu => Nat.le_trans ht.1.1 hu

theorem read {f : ShapeState → Shape α} (h : ∀ s, Makes lo (f s) P) : Makes lo (get >>= f) P :=
  fun _ => Triple.read fun s hs => Triple.fixed (h s _) hs

theorem ite {c : Prop} [Decidable c] {y : Shape α} (hx : c → Makes lo x P) (hy : ¬c → Makes lo y P) :
    Makes lo (if c then x else y) P := by
  split
  · exact hx ‹_›
  · exact hy ‹_›

theorem all {ι : Sort _} {P : ι → Nat → α → Prop} (hx : ∀ i, Makes lo x (P i)) (i : ι) :
    Makes lo x fun hi a => ∀ i, P i hi a := by
  intro h s hs
  have hall := fun j => hx j h s hs
  cases hr : x s with
  | ok a t =>
    rw [hr] at hall
    exact ⟨⟨(hall i).1.1, fun j => (hall j).1.2⟩, (hall i).2⟩
  | error e t =>
    rw [hr] at hall
    exact hall i

end Makes

theorem fail_makes {p : Pos} : Makes lo (fail cause p : Shape α) P := .raise

theorem last_makes : Makes lo last fun hi _ => hi = lo := .read fun _ => .ret rfl

theorem failAt_makes {toks : List Token} : Makes lo (failAt cause toks : Shape α) P :=
  last_makes.seq fun _ _ _ _ => fail_makes

theorem look_makes {p : Pos} : Makes lo (look p) fun hi _ => hi = lo :=
  fun _ => Triple.update fun _ hs => ⟨⟨Nat.le_of_eq hs.1.symm, hs.1⟩, hs.2⟩

theorem lift_makes {R : α → Prop} {r : Pos → Except ParseError α} (h : ∀ p a, r p = .ok a → R a) :
    Makes lo (lift r) fun hi a => hi = lo ∧ R a := by
  refine last_makes.seq fun p m _ hm => ?_
  subst hm
  cases hr : r p with
  | ok a => exact .ret ⟨rfl, h p a hr⟩
  | error e => exact .raise

theorem freshName_makes {tag : String} : Makes lo (freshName tag) fun hi n => hi = lo + 1 ∧ n = freshText tag lo :=
  fun _ => Triple.read fun s hs => Triple.seq
    (Q := fun _ t => t.labels = lo + 1 ∧ t.hoisted = s.hoisted) (Triple.write fun _ _ => ⟨by rw [hs.1], rfl⟩)
    fun _ => Triple.ret fun t ht => ⟨⟨by omega, ht.1, by rw [← hs.1]; rfl⟩, ht.2.trans hs.2⟩

/-- A fresh name takes one number. -/
theorem fresh_makes {c : Place} {tag : String} :
    Makes lo (fresh c tag) fun hi path => hi = lo + 1 ∧ path = c.scope ++ "/" ++ freshText tag lo :=
  freshName_makes.seq fun n m _ hn => .ret ⟨hn.1, by rw [hn.2]⟩

end Shape

end Goblet
