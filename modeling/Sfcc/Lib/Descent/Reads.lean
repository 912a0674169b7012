import Sfcc.Lib.Descent.Basic

namespace Descent

inductive Mode
  | fresh
  | lexed
  | ahead
  | any

-- The next token is known.
class Mode.Peeked (m : Mode) : Prop where
  known : m = .lexed ∨ m = .ahead

instance : Mode.Peeked .lexed := ⟨.inl rfl⟩

instance : Mode.Peeked .ahead := ⟨.inr rfl⟩

-- The reader stands before the tokens `ts` with `su` filled so far: none of them has been lexed
-- (`fresh`), or the first one has, and is current (`lexed`) or pushed back (`ahead`).
inductive At {τ κ σ : Type} [Token τ κ] [Store τ σ] : Mode → List τ → σ → σ × Reader τ → Prop
  | fresh {ts su c}       : At .fresh ts su (su, ⟨ts, c, false⟩)
  | lexed {ts su}         : At .lexed ts su (store (next ts) su, ⟨ts.tail, next ts, false⟩)
  | ahead {ts su}         : At .ahead ts su (store (next ts) su, ⟨ts.tail, next ts, true⟩)
  | any_of_fresh {ts su c} : At .any ts su (su, ⟨ts, c, false⟩)
  | any_of_ahead {ts su}   : At .any ts su (store (next ts) su, ⟨ts.tail, next ts, true⟩)

variable {τ κ φ σ υ δ T T₁ T₂ A : Type} [Token τ κ]
variable [Store τ σ] [Store τ υ] [Store τ δ]
variable {m m' m₁ m₂ : Mode} {ts : List τ} {su su' : σ} {r r' : σ × Reader τ} {n k : ℕ}

namespace At

theorem fresh_any : At .fresh ts su r → At .any ts su r
  | .fresh => .any_of_fresh

theorem ahead_any : At .ahead ts su r → At .any ts su r
  | .ahead => .any_of_ahead

theorem lex (h : At .any ts su r) :
    ∃ r', Descent.lex (φ := φ) r.1 r.2 = .ok r' ∧ At .lexed ts su r' := by
  cases h
  case any_of_fresh => exact ⟨_, rfl, .lexed⟩
  case any_of_ahead => exact ⟨_, rfl, .lexed⟩

theorem pushBack [hm : m.Peeked] (h : At m ts su r) :
    At .ahead ts su (r.1, { r.2 with pushedBack := true }) := by
  cases h
  case lexed | ahead => exact .ahead
  all_goals exact absurd hm.known (by simp)

-- A token that stores nothing may be pushed back wherever it was lexed into.
theorem pushed {z : τ} (h : next ts = z) (hz : store z su = su) :
    At .any ts su (su, ⟨ts.tail, z, true⟩) := by
  have ha : At .any ts su (store (next ts) su, ⟨ts.tail, next ts, true⟩) := .any_of_ahead
  rwa [h, hz] at ha

theorem current [hm : m.Peeked] (h : At m ts su r) : r.2.current = next ts := by
  cases h
  case lexed | ahead => rfl
  all_goals exact absurd hm.known (by simp)

end At

-- How a run has to end when the tokens it is given are a yield with the outcome `o`.
def Ends (m : Mode) (ts : List τ) : Except φ σ → Except (Failure τ φ) (σ × Reader τ) → Prop
  | .ok su,   x => ∃ r, x = .ok r ∧ At m ts su r
  | .error f, x => x = .error (.fault f)

-- The parser `q` accepts the yields of the trees `T` and turns what it was filling into their `out`.
-- Trees with a yield of more than `n` tokens, and those with one of the tokens `more` behind, are
-- left to others.
structure Reads (m m' : Mode) (q : σ → Parser τ φ σ) (n : ℕ) (more : κ → Bool) (yield : T → List τ)
    (out : T → σ → Except φ σ) : Prop where
  sound : ∀ {ts su r r'}, At m ts su r → q r.1 r.2 = .ok r' →
    ∃ t ts' su', ts = yield t ++ ts' ∧ out t su = .ok su' ∧ At m' ts' su' r'
  complete : ∀ {t ts su r}, At m (yield t ++ ts) su r → (yield t).length ≤ n →
    more (kind (next ts)) = false → Ends m' ts (out t su) (q r.1 r.2)

abbrev never : κ → Bool :=
  fun _ => false

-- No tree begins with one of the tokens `more`.
def Clear (more : κ → Bool) (yield : T → List τ) : Prop :=
  ∀ t ts, more (kind (next ts)) = false → more (kind (next (yield t ++ ts))) = false

-- A production that is called with one of the tokens `opens` pushed back.
structure Guarded (opens : κ → Bool) (q : σ → Parser τ φ σ) (n : ℕ) (yield : T → List τ)
    (out : T → σ → Except φ σ) : Prop where
  starts : ∀ t, ∃ x xs, yield t = x :: xs ∧ opens (kind x)
  sound : ∀ {ts su r r'}, opens (kind (next ts)) → At .ahead ts su r → q r.1 r.2 = .ok r' →
    ∃ t ts' su', ts = yield t ++ ts' ∧ out t su = .ok su' ∧ At .fresh ts' su' r'
  complete : ∀ {t ts su r}, At .ahead (yield t ++ ts) su r → (yield t).length ≤ n →
    Ends .fresh ts (out t su) (q r.1 r.2)

-- The same for one whose end is only known from what follows. A tree without tokens is told from
-- what follows as well.
structure Opened (m' : Mode) (opens : κ → Bool) (q : σ → Parser τ φ σ) (n : ℕ) (more : κ → Bool)
    (yield : T → List τ) (out : T → σ → Except φ σ) : Prop where
  starts : ∀ t ts, more (kind (next ts)) = false → opens (kind (next (yield t ++ ts)))
  sound : ∀ {ts su r r'}, opens (kind (next ts)) → At .ahead ts su r → q r.1 r.2 = .ok r' →
    ∃ t ts' su', ts = yield t ++ ts' ∧ out t su = .ok su' ∧ At m' ts' su' r'
  complete : ∀ {t ts su r}, At .ahead (yield t ++ ts) su r → (yield t).length ≤ n →
    more (kind (next ts)) = false → Ends m' ts (out t su) (q r.1 r.2)

-- A production that has been given the token it starts with.
structure Arms (m m' : Mode) (opens : κ → Bool) (q : σ → Parser τ φ σ) (n : ℕ) (more : κ → Bool)
    (yield : T → List τ) (out : T → σ → Except φ σ) : Prop extends Reads m m' q n more yield out where
  starts : ∀ t ts, more (kind (next ts)) = false → opens (kind (next (yield t ++ ts)))

namespace Ends

variable {o : Except φ σ} {x : Except (Failure τ φ) (σ × Reader τ)}

theorem bind {x : Parser τ φ σ} {f : σ → Parser τ φ δ} {g : σ → Except φ δ} {s : Reader τ}
    {ts' : List τ} (h : Ends m ts o (x s))
    (hf : ∀ su r, o = .ok su → At m ts su r → Ends m' ts' (g su) (f r.1 r.2)) :
    Ends m' ts' (o >>= g) ((x >>= f) s) := by
  cases o with
  | error e => exact bind_error h
  | ok su   =>
    obtain ⟨r, hr, ha⟩ := h
    rw [bind_apply hr]
    exact hf su r rfl ha

theorem weaken (h : Ends .fresh ts o x) : Ends .any ts o x := by
  cases o with
  | error e => exact h
  | ok su   =>
    obtain ⟨r, hr, ha⟩ := h
    exact ⟨r, hr, ha.fresh_any⟩

end Ends

-- Lifting what is known of a production to the member it fills.
theorem Ends.focus {o : Except φ δ} {p : δ → Parser τ φ δ} {get : σ → δ} {set : δ → σ → σ}
    {f : δ → σ} {s : Reader τ} (h : Ends .fresh ts o (p (get su) s)) (hf : f = (set · su)) :
    Ends .fresh ts (o.map f) (focus get set p su s) := by
  subst hf
  cases o with
  | error e => exact bind_error h
  | ok d    =>
    obtain ⟨r, hr, ha⟩ := h
    cases ha
    exact ⟨_, bind_apply hr, .fresh⟩

theorem focus_ok {p : δ → Parser τ φ δ} {get : σ → δ} {set : δ → σ → σ} {s : Reader τ}
    (hq : focus get set p su s = .ok r') :
    ∃ r, p (get su) s = .ok r ∧ ∀ {ts d}, At .fresh ts d r → At .fresh ts (set d su) r' := by
  have ⟨r, hp, hs⟩ := bind_ok hq
  refine ⟨r, hp, fun ha => ?_⟩
  cases ha
  cases hs
  exact .fresh

theorem Clear.append {more : κ → Bool} {yield₁ : T₁ → List τ} {yield₂ : T₂ → List τ}
    (h₁ : Clear more yield₁) (h₂ : Clear more yield₂) :
    Clear more (fun t : T₁ × T₂ => yield₁ t.1 ++ yield₂ t.2) := by
  intro t ts h
  rw [List.append_assoc]
  exact h₁ _ _ (h₂ _ _ h)

namespace Reads

variable {q q₁ q₂ : σ → Parser τ φ σ} {more more₁ more₂ : κ → Bool}
variable {yield : T → List τ} {out : T → σ → Except φ σ}
variable {yield₁ : T₁ → List τ} {out₁ : T₁ → σ → Except φ σ}
variable {yield₂ : T₂ → List τ} {out₂ : T₂ → σ → Except φ σ}

theorem weaken (h : Reads m .fresh q n more yield out) : Reads m .any q n more yield out where
  sound ha hq :=
    have ⟨t, ts', su', ht, ho, h'⟩ := h.sound ha hq
    ⟨t, ts', su', ht, ho, h'.fresh_any⟩
  complete ha hn hm := (h.complete ha hn hm).weaken

theorem fresh (h : Reads .any m' q n more yield out) : Reads .fresh m' q n more yield out where
  sound ha hq := h.sound ha.fresh_any hq
  complete ha hn hm := h.complete ha.fresh_any hn hm

theorem mono {n' : ℕ} (h : Reads m m' q n more yield out) (hn : n' ≤ n) :
    Reads m m' q n' more yield out where
  sound := h.sound
  complete ha hl hm := h.complete ha (Nat.le_trans hl hn) hm

-- Of a production whose end does not depend on what follows: an input that it accepts begins with a
-- yield, and however it is split, the outcome is that of the tree.
theorem accepted {c : τ} (h : ∀ n, Reads .any .fresh q n never yield out)
    (hq : q su ⟨ts, c, false⟩ = .ok r) :
    (∃ t ts', ts = yield t ++ ts') ∧ ∀ t ts', ts = yield t ++ ts' → out t su = .ok r.1 := by
  constructor
  · have ⟨t, ts', _, ht, _⟩ := (h 0).sound .any_of_fresh hq
    exact ⟨t, ts', ht⟩
  · intro t ts' ht
    subst ht
    have he : Ends .fresh ts' (out t su) (q su ⟨yield t ++ ts', c, false⟩) :=
      (h _).complete .any_of_fresh (Nat.le_refl _) rfl
    cases ho : out t su with
    | error f =>
      rw [ho] at he
      cases hq.symm.trans he
    | ok su'  =>
      rw [ho] at he
      have ⟨r', hr, ha⟩ := he
      cases hq.symm.trans hr
      cases ha
      rfl

-- It accepts the yield of a tree whose outcome is not a failure.
theorem parsed {t : T} {su' : σ} (h : ∀ n, Reads .any .fresh q n never yield out) (ho : out t su = .ok su')
    (ts : List τ) (c : τ) : ∃ r, q su ⟨yield t ++ ts, c, false⟩ = .ok (su', r) := by
  have he : Ends .fresh ts (out t su) (q su ⟨yield t ++ ts, c, false⟩) :=
    (h _).complete .any_of_fresh (Nat.le_refl _) rfl
  rw [ho] at he
  have ⟨r, hr, ha⟩ := he
  cases ha
  exact ⟨_, hr⟩

theorem guarded (opens : κ → Bool) (h : Reads .any .fresh q n never yield out)
    (hs : ∀ t, ∃ x xs, yield t = x :: xs ∧ opens (kind x)) : Guarded opens q n yield out where
  starts := hs
  sound _ ha hq := h.sound ha.ahead_any hq
  complete ha hn := h.complete ha.ahead_any hn rfl

theorem guarded_ahead (opens : κ → Bool) (h : Reads .ahead .fresh q n never yield out)
    (hs : ∀ t, ∃ x xs, yield t = x :: xs ∧ opens (kind x)) : Guarded opens q n yield out where
  starts := hs
  sound _ ha hq := h.sound ha hq
  complete ha hn := h.complete ha hn rfl

-- Trees may be described in another way, and those that always fail left out.
theorem map {yield' : T₁ → List τ} {out' : T₁ → σ → Except φ σ}
    (h : Reads m m' q n more yield out) (f : T₁ → T)
    (hf : ∀ {t su su'}, out t su = .ok su' → ∃ t₁, f t₁ = t)
    (hy : ∀ t, yield' t = yield (f t)) (ho : ∀ t, out' t = out (f t)) :
    Reads m m' q n more yield' out' where
  sound ha hq := by
    obtain ⟨t, ts', su', ht, hout, ha'⟩ := h.sound ha hq
    obtain ⟨t₁, rfl⟩ := hf hout
    exact ⟨t₁, ts', su', by rw [hy, ht], by rw [ho, hout], ha'⟩
  complete {t} ts su r ha hn hm := by
    rw [hy] at ha hn
    rw [ho]
    exact h.complete ha hn hm

theorem leaf : Reads (τ := τ) (φ := φ) m m (fun su : σ => pure su) n more (fun _ : Unit => [])
    (fun _ su => .ok su) where
  sound {ts su r r'} ha hq := by
    cases hq
    exact ⟨(), ts, su, rfl, rfl, ha⟩
  complete {_ _ _ r} ha _ _ := ⟨r, rfl, ha⟩

-- One part after the other: the second must not begin with a token that continues the first.
theorem seq (h₁ : Reads m m₁ q₁ n more₁ yield₁ out₁) (h₂ : Reads m₁ m' q₂ n more₂ yield₂ out₂)
    (hc : Clear more₁ yield₂) :
    Reads m m' (fun su => q₁ su >>= q₂) n (fun k => more₁ k || more₂ k)
      (fun t : T₁ × T₂ => yield₁ t.1 ++ yield₂ t.2) (fun t su => out₁ t.1 su >>= out₂ t.2) where
  sound ha hq := by
    have ⟨r₁, hq₁, hq₂⟩ := bind_ok hq
    obtain ⟨t₁, ts₁, su₁, rfl, ho₁, ha₁⟩ := h₁.sound ha hq₁
    obtain ⟨t₂, ts₂, su₂, rfl, ho₂, ha₂⟩ := h₂.sound ha₁ hq₂
    refine ⟨(t₁, t₂), ts₂, su₂, by simp, ?_, ha₂⟩
    simpa [ho₁, bind, Except.bind] using ho₂
  complete {t ts} su r ha hn hmore := by
    simp only [List.append_assoc, List.length_append, Bool.or_eq_false_iff] at ha hn hmore
    refine (h₁.complete ha (by omega) (hc _ _ hmore.1)).bind fun su₁ r₁ _ ha₁ => ?_
    exact h₂.complete ha₁ (by omega) hmore.2

-- Without fuel nothing is accepted, and no yield is that short.
theorem zero (h : ∀ t, yield t ≠ []) :
    Reads m m' (fun _ => outOfFuel) 0 more yield out where
  sound _ hq := by cases hq
  complete _ hn _ := absurd (List.length_eq_zero_iff.mp (Nat.le_zero.mp hn)) (h _)

theorem fueled {p : ℕ → σ → Parser τ φ σ} (h : ∀ n, Reads .any m' (p n) n more yield out) :
    Reads .any m' (fueled p) n more yield out where
  sound ha hq := (h _).sound ha hq
  complete {t ts su r} ha _ hm := by
    refine (h (r.2.rest.length + 1)).complete ha ?_ hm
    have : (yield t ++ ts).length ≤ r.2.rest.length + 1 := by
      cases ha <;> grind
    exact Nat.le_trans (by simp) this

-- A production on a member, where nothing is pushed back.
theorem focus {yield : T → List τ} {out : T → δ → Except φ δ} {p : δ → Parser τ φ δ}
    {get : σ → δ} {set : δ → σ → σ} (h : Reads .any .fresh p n more yield out) :
    Reads .fresh .fresh (focus get set p) n more yield
      (fun t su => (out t (get su)).map (set · su)) where
  sound ha hq := by
    cases ha
    obtain ⟨r, hp, hr⟩ := focus_ok hq
    obtain ⟨t, ts', d, rfl, ho, ha⟩ := h.sound .any_of_fresh hp
    exact ⟨t, ts', _, rfl, by rw [ho]; rfl, hr ha⟩
  complete {t ts} su r ha hn hmore := by
    cases ha with | fresh => exact .focus (h.complete .any_of_fresh hn hmore) rfl

-- A computation that does not look at what lexing writes.
theorem act {g : σ → Except φ σ} (hg : ∀ (t : τ) su, g (store t su) = (g su).map (store t)) :
    Reads m m (act g : σ → Parser τ φ σ) n more (fun _ : Unit => []) fun _ => g where
  sound {ts su r r'} ha hq := by
    simp only [Descent.act] at hq
    split at hq
    case h_2 => cases hq
    case h_1 su₁ h₁ =>
      cases hq
      cases h : g su with
      | error f =>
        cases ha
        all_goals simp only [hg, h, Except.map, reduceCtorEq] at h₁
      | ok su' =>
        refine ⟨(), ts, su', rfl, rfl, ?_⟩
        cases ha
        all_goals
          simp only [hg, h, Except.map, Except.ok.injEq] at h₁
          subst h₁
          constructor
  complete {t ts su r} ha _ _ := by
    simp only [Descent.act]
    cases h : g su with
    | error f =>
      cases ha
      all_goals simp only [hg, h, Except.map, Ends]
    | ok su' =>
      cases ha
      all_goals
        simp only [hg, h, Except.map]
        exact ⟨_, rfl, by constructor⟩

end Reads

namespace Guarded

variable {opens : κ → Bool} {q : σ → Parser τ φ σ} {yield : T → List τ} {out : T → σ → Except φ σ}

theorem opens_next (h : Guarded opens q n yield out) (t : T) (ts : List τ) :
    opens (kind (next (yield t ++ ts))) := by
  obtain ⟨x, xs, hx, ho⟩ := h.starts t
  simpa [hx, next] using ho

theorem clear_optional {more : κ → Bool} (h : Guarded opens q n yield out)
    (hd : ∀ k, opens k → more k = false) : Clear more fun t : Option T => t.elim [] yield
  | none, _, hm   => hm
  | some t, ts, _ => hd _ (h.opens_next t ts)

theorem clear_many {more : κ → Bool} (h : Guarded opens q n yield out)
    (hd : ∀ k, opens k → more k = false) : Clear more fun l : List T => l.flatMap yield
  | [], _, hm      => hm
  | t :: l, ts, _ => by
    show more (kind (next ((t :: l).flatMap yield ++ ts))) = false
    rw [List.flatMap_cons, List.append_assoc]
    exact hd _ (h.opens_next t _)

theorem next_append (h : Guarded opens q n yield out) (t : T) (ts : List τ) :
    next (yield t ++ ts) = next (yield t) := by
  obtain ⟨x, xs, hx, _⟩ := h.starts t
  simp [hx, next]

theorem focus {yield : T → List τ} {out : T → δ → Except φ δ} {p : δ → Parser τ φ δ}
    {get : σ → δ} {set : δ → σ → σ} (h : Guarded opens p n yield out)
    (hget : ∀ (x : τ) su, opens (kind x) → get (store x su) = store x (get su)) :
    Guarded opens (focus get set p) n yield
      (fun t su => (out t (get su)).map (set · (store (next (yield t)) su))) where
  starts := h.starts
  sound {ts} su r r' hs ha hq := by
    cases ha
    obtain ⟨r, hq, hr⟩ := focus_ok hq
    rw [hget _ _ hs] at hq
    obtain ⟨t, ts', d, rfl, ho, ha⟩ := h.sound hs .ahead hq
    exact ⟨t, ts', _, rfl, by rw [ho, h.next_append]; rfl, hr ha⟩
  complete {t ts} su r ha hn := by
    cases ha
    refine .focus ?_ (by rw [h.next_append])
    rw [hget _ _ (h.opens_next t ts)]
    exact h.complete .ahead hn

theorem act {g : σ → Except φ σ} (h : Guarded opens q n yield out) :
    Guarded opens (fun su => q su >>= act g) n yield (fun t su => out t su >>= g) where
  starts := h.starts
  sound hs ha hq := by
    have ⟨r₁, hq₁, hg⟩ := bind_ok hq
    obtain ⟨t, ts', su', rfl, ho, ha'⟩ := h.sound hs ha hq₁
    cases ha'
    simp only [Descent.act] at hg
    split at hg <;> cases hg
    exact ⟨t, ts', _, rfl, by simpa [ho, bind, Except.bind], .fresh⟩
  complete {t ts su r} ha hn := by
    refine (h.complete ha hn).bind fun su₁ r₁ _ ha₁ => ?_
    cases ha₁
    simp only [Descent.act]
    cases g su₁ with
    | error f => exact rfl
    | ok su'  => exact ⟨_, rfl, .fresh⟩

-- Trees may be described in another way, and those that always fail left out.
theorem map {yield' : T₁ → List τ} {out' : T₁ → σ → Except φ σ} (h : Guarded opens q n yield out)
    (f : T₁ → T) (hf : ∀ {t su su'}, out t su = .ok su' → ∃ t₁, f t₁ = t)
    (hy : ∀ t, yield' t = yield (f t)) (ho : ∀ t, out' t = out (f t)) :
    Guarded opens q n yield' out' where
  starts t := by
    rw [hy]
    exact h.starts _
  sound hs ha hq := by
    obtain ⟨t, ts', su', ht, hout, ha'⟩ := h.sound hs ha hq
    obtain ⟨t₁, rfl⟩ := hf hout
    exact ⟨t₁, ts', su', by rw [hy, ht], by rw [ho, hout], ha'⟩
  complete {t} ts su r ha hn := by
    rw [hy] at ha hn
    rw [ho]
    exact h.complete ha hn

end Guarded

-- Reading the token that decides how to go on.
theorem Reads.choice {q : σ → Parser τ φ σ} {more : κ → Bool} {yield : T → List τ}
    {out : T → σ → Except φ σ} (h : Reads .lexed m q n more yield out) :
    Reads .any m (choice q) n more yield out where
  sound ha hq := by
    obtain ⟨r, hr, ha⟩ := ha.lex
    have ⟨r₁, hr₁, hq⟩ := bind_ok hq
    cases hr.symm.trans hr₁
    exact h.sound ha hq
  complete ha hn hm := by
    obtain ⟨r, hr, ha⟩ := ha.lex
    rw [Descent.choice, bind_apply hr]
    exact h.complete ha hn hm

namespace Opened

variable {opens opens₁ opens₂ : κ → Bool} {q q' : σ → Parser τ φ σ} {more more' : κ → Bool}
variable {yield : T → List τ} {out : T → σ → Except φ σ}
variable {yield₁ : T₁ → List τ} {out₁ : T₁ → σ → Except φ σ}
variable {yield₂ : T₂ → List τ} {out₂ : T₂ → σ → Except φ σ}

theorem weaken (h : Opened .fresh opens q n more yield out) : Opened .any opens q n more yield out where
  starts := h.starts
  sound hs ha hq :=
    have ⟨t, ts', su', ht, ho, h'⟩ := h.sound hs ha hq
    ⟨t, ts', su', ht, ho, h'.fresh_any⟩
  complete ha hn hm := (h.complete ha hn hm).weaken

theorem mono (h : Opened m' opens q n more yield out)
    (hm : ∀ k, more' k = false → more k = false) : Opened m' opens q n more' yield out where
  starts t ts h' := h.starts t ts (hm _ h')
  sound := h.sound
  complete ha hn h' := h.complete ha hn (hm _ h')

theorem congr (h : Opened m' opens q n more yield out)
    (hq : ∀ {ts su r}, opens (kind (next ts)) → At .ahead ts su r → q' r.1 r.2 = q r.1 r.2) :
    Opened m' opens q' n more yield out where
  starts := h.starts
  sound hs ha h' := h.sound hs ha (hq hs ha ▸ h')
  complete {t ts} su r ha hn hm := by
    rw [hq (h.starts t ts hm) ha]
    exact h.complete ha hn hm

theorem map {yield' : T₁ → List τ} {out' : T₁ → σ → Except φ σ}
    (h : Opened m' opens q n more yield out) (f : T₁ → T)
    (hf : ∀ {t su su'}, out t su = .ok su' → ∃ t₁, f t₁ = t)
    (hy : ∀ t, yield' t = yield (f t)) (ho : ∀ t, out' t = out (f t)) :
    Opened m' opens q n more yield' out' where
  starts t ts hm := by
    rw [hy]
    exact h.starts _ _ hm
  sound hs ha hq := by
    obtain ⟨t, ts', su', ht, hout, ha'⟩ := h.sound hs ha hq
    obtain ⟨t₁, rfl⟩ := hf hout
    exact ⟨t₁, ts', su', by rw [hy, ht], by rw [ho, hout], ha'⟩
  complete {t} ts su r ha hn hm := by
    rw [hy] at ha hn
    rw [ho]
    exact h.complete ha hn hm

theorem guarded (h : Guarded opens q n yield out) : Opened .fresh opens q n more yield out where
  starts t ts _ := h.opens_next t ts
  sound := h.sound
  complete ha hn _ := h.complete ha hn

-- One production with two ways to begin.
theorem split (h₁ : Opened m' opens₁ q n more yield₁ out₁) (h₂ : Opened m' opens₂ q n more yield₂ out₂) :
    Opened m' (fun k => opens₁ k || opens₂ k) q n more (Sum.elim yield₁ yield₂)
      (Sum.elim out₁ out₂) where
  starts
    | .inl t, ts, hm => by simpa using .inl (h₁.starts t ts hm)
    | .inr t, ts, hm => by simpa using .inr (h₂.starts t ts hm)
  sound {ts} su r r' hs ha hq := by
    cases (Bool.or_eq_true _ _).mp hs
    case inl hs =>
      have ⟨t, h⟩ := h₁.sound hs ha hq
      exact ⟨.inl t, h⟩
    case inr hs =>
      have ⟨t, h⟩ := h₂.sound hs ha hq
      exact ⟨.inr t, h⟩
  complete {t ts} su r ha hn hm :=
    match t with
    | .inl _ => h₁.complete ha hn hm
    | .inr _ => h₂.complete ha hn hm

-- Leaving the token that is ahead to others.
theorem stay (opens : κ → Bool) : Opened (τ := τ) .any opens (fun su : σ => (pure su : Parser τ φ σ)) n
    (fun k => !opens k) (fun _ : Unit => []) (fun _ su => .ok su) where
  starts _ _ hm := by simpa using hm
  sound {ts su r r'} _ ha hq := by
    cases hq
    exact ⟨(), ts, su, rfl, rfl, ha.ahead_any⟩
  complete {_ _ _ r} ha _ _ := ⟨r, rfl, ha.ahead_any⟩

theorem optional (h : Opened .any opens q n more yield out) (hm : ∀ k, opens k = false → more k = false) :
    Reads .any .any (Descent.optional opens q) n opens (fun t : Option T => t.elim [] yield)
      (fun t su => t.elim (.ok su) (out · su)) where
  sound {ts su r r'} ha hq := by
    obtain ⟨r₁, hr₁, ha₁⟩ := ha.lex
    rw [Descent.optional, bind_apply hr₁, pushBack_current_bind] at hq
    split at hq
    case isTrue hs =>
      obtain ⟨t, ts', su', ht, ho, ha'⟩ := h.sound (ha₁.current ▸ hs) ha₁.pushBack hq
      exact ⟨some t, ts', su', ht, ho, ha'⟩
    case isFalse =>
      cases hq
      exact ⟨none, ts, su, rfl, rfl, ha₁.pushBack.ahead_any⟩
  complete {t ts} su r ha hn h' := by
    obtain ⟨r₁, hr₁, ha₁⟩ := ha.lex
    have hc := ha₁.current
    rw [Descent.optional, bind_apply hr₁, pushBack_current_bind]
    cases t
    case none =>
      have hs : opens (kind r₁.2.current) = false := by rw [hc]; exact h'
      rw [if_neg (by simp [hs])]
      exact ⟨_, rfl, ha₁.pushBack.ahead_any⟩
    case some t =>
      have hs : opens (kind r₁.2.current) := by rw [hc]; exact h.starts t ts (hm _ h')
      rw [if_pos hs]
      exact h.complete ha₁.pushBack hn (hm _ h')

end Opened

section

variable {opens : κ → Bool} {q : σ → Parser τ φ σ}

theorem optional_pos (ha : At .ahead ts su r) (hs : opens (kind (next ts))) :
    Descent.optional opens q r.1 r.2 = q r.1 r.2 := by
  have ⟨r₁, hr₁, ha₁⟩ := ha.ahead_any.lex (φ := φ)
  rw [Descent.optional, bind_apply hr₁, pushBack_current_bind, ha₁.current, if_pos hs]
  cases ha
  cases ha₁
  rfl

theorem optional_neg (ha : At .ahead ts su r) (hs : opens (kind (next ts)) = false) :
    Descent.optional opens q r.1 r.2 = .ok r := by
  have ⟨r₁, hr₁, ha₁⟩ := ha.ahead_any.lex (φ := φ)
  rw [Descent.optional, bind_apply hr₁, pushBack_current_bind, ha₁.current, if_neg (by simp [hs])]
  cases ha
  cases ha₁
  rfl

end

namespace Guarded

variable {opens opens' : κ → Bool} {q : σ → Parser τ φ σ} {more : κ → Bool} {yield : T → List τ}
variable {out : T → σ → Except φ σ}

theorem seq {q₂ : σ → Parser τ φ σ} {yield₂ : T₂ → List τ} {out₂ : T₂ → σ → Except φ σ}
    (h : Guarded opens q n yield out) (h₂ : Reads .fresh m' q₂ n more yield₂ out₂) :
    Opened m' opens (fun su => q su >>= q₂) n more (fun t : T × T₂ => yield t.1 ++ yield₂ t.2)
      (fun t su => out t.1 su >>= out₂ t.2) where
  starts t ts _ := by
    rw [List.append_assoc]
    exact h.opens_next _ _
  sound hs ha hq := by
    have ⟨r₁, hq₁, hq₂⟩ := bind_ok hq
    obtain ⟨t₁, ts₁, su₁, rfl, ho₁, ha₁⟩ := h.sound hs ha hq₁
    obtain ⟨t₂, ts₂, su₂, rfl, ho₂, ha₂⟩ := h₂.sound ha₁ hq₂
    refine ⟨(t₁, t₂), ts₂, su₂, by simp, ?_, ha₂⟩
    simpa [ho₁, bind, Except.bind] using ho₂
  complete {t ts} su r ha hn hm := by
    simp only [List.append_assoc, List.length_append] at ha hn
    refine (h.complete ha (by omega)).bind fun su₁ r₁ _ ha₁ => ?_
    exact h₂.complete ha₁ (by omega) hm

end Guarded

namespace Arms

variable {opens opens₁ opens₂ : κ → Bool} {q p rest : σ → Parser τ φ σ} {more : κ → Bool}
variable {yield : T → List τ} {out : T → σ → Except φ σ}
variable {yield₁ : T₁ → List τ} {out₁ : T₁ → σ → Except φ σ}
variable {yield₂ : T₂ → List τ} {out₂ : T₂ → σ → Except φ σ}

theorem parseError {e : String} :
    Arms m m' never (fun _ : σ => (parseError e : Parser τ φ σ)) n more
      (fun t : Empty => t.elim) (fun t => t.elim) where
  sound _ hq := by cases hq
  complete {t} := t.elim
  starts t := t.elim

theorem arm [m.Peeked] (h₁ : Opened m' opens₁ p n more yield₁ out₁)
    (h₂ : Arms m m' opens₂ rest n more yield₂ out₂) (hd : ∀ k, opens₂ k → opens₁ k = false) :
    Arms m m' (fun k => opens₁ k || opens₂ k) (arm opens₁ p rest) n more (Sum.elim yield₁ yield₂)
      (Sum.elim out₁ out₂) where
  sound {ts} su r r' ha hq := by
    simp only [Descent.arm, current_bind, ha.current] at hq
    split at hq
    case isTrue hs =>
      obtain ⟨t, h⟩ := h₁.sound hs ha.pushBack hq
      exact ⟨.inl t, h⟩
    case isFalse =>
      obtain ⟨t, h⟩ := h₂.sound ha hq
      exact ⟨.inr t, h⟩
  complete {t ts} su r ha hn hm := by
    simp only [Descent.arm, current_bind, ha.current]
    cases t
    case inl t =>
      have hs := h₁.starts t ts hm
      simp only [Sum.elim_inl, hs, if_true]
      exact h₁.complete ha.pushBack hn hm
    case inr t =>
      have hs : opens₁ (kind (next (yield₂ t ++ ts))) = false := hd _ (h₂.starts t ts hm)
      rw [Sum.elim_inr, if_neg (by simp [hs])]
      exact h₂.complete ha hn hm
  starts
    | .inl t, ts, hm => by simpa using .inl (h₁.starts t ts hm)
    | .inr t, ts, hm => by simpa using .inr (h₂.starts t ts hm)

theorem last {e : String} [m.Peeked] (h : Opened m' opens p n more yield out) :
    Arms m m' opens (Descent.arm opens p fun _ => Descent.parseError e) n more yield out where
  toReads := (arm h parseError fun _ h => by cases h).map .inl
    (fun {t} _ _ _ => match t with | .inl t => ⟨t, rfl⟩) (fun _ => rfl) fun _ => rfl
  starts := h.starts

end Arms

-- The tokens of a kind that opens an element, and what they carry.
structure Opens (k : κ) (mk : A → τ) : Prop where
  iff    : ∀ t : τ, kind t = k ↔ ∃ a, mk a = t
  ne_eof : kind (eof : τ) ≠ k

structure Closes (k : κ) (z : τ) : Prop where
  iff    : ∀ t : τ, kind t = k ↔ t = z
  ne_eof : kind (eof : τ) ≠ k

theorem next_ne_eof {k : κ} (he : kind (eof : τ) ≠ k) (hk : kind (next ts) = k) :
    ts = next ts :: ts.tail := by
  cases ts with
  | nil      => exact absurd hk he
  | cons t _ => rfl

theorem Opens.next {k : κ} {mk : A → τ} (h : Opens k mk) (hk : kind (Descent.next ts) = k) :
    ∃ a ts', ts = mk a :: ts' :=
  have ⟨a, ha⟩ := (h.iff _).mp hk
  ⟨a, ts.tail, ha ▸ next_ne_eof h.ne_eof hk⟩

theorem Closes.next {k : κ} {z : τ} (h : Closes k z) (hk : kind (Descent.next ts) = k) :
    ∃ ts', ts = z :: ts' :=
  ⟨ts.tail, (h.iff _).mp hk ▸ next_ne_eof h.ne_eof hk⟩

section Element

variable {opening closing : κ} {expOpening expClosing : String} {zero : υ} {mk : A → τ} {z : τ}
variable {content : σ × υ → Parser τ φ (σ × υ)} {more : κ → Bool} {yield : T → List τ}
variable {out : T → σ × υ → Except φ (σ × υ)}

-- The closing token of an element stores nothing, so it does not matter where it was lexed into.
theorem At.close {r : (σ × υ) × Reader τ} {u : υ} (hz : ∀ su : σ, store z su = su)
    (hk : Closes closing z) (h : At .any ts (su, u) r) :
    ∃ r', Descent.lex (φ := φ) r.1.1 r.2 = .ok r' ∧ r'.2.current = next ts ∧
      (kind (next ts) = closing → r' = (su, ⟨ts.tail, next ts, false⟩)) := by
  cases h
  case any_of_fresh => exact ⟨_, rfl, rfl, fun h => by simp only [(hk.iff _).mp h, hz]⟩
  case any_of_ahead => exact ⟨_, rfl, rfl, fun _ => rfl⟩

variable [DecidableEq κ]

theorem Reads.element (ho : Opens opening mk) (hk : Closes closing z)
    (hz : ∀ su : σ, store z su = su) (hm : more closing = false)
    (h : Reads .fresh .any content n more yield out) :
    Reads .any .fresh (element opening closing expOpening expClosing zero content) (n + 1) never
      (fun t : A × T => mk t.1 :: (yield t.2 ++ [z]))
      (fun t su => (out t.2 (store (mk t.1) su, zero)).map Prod.fst) where
  sound {ts su r r'} ha hq := by
    obtain ⟨r₁, hr₁, ha₁⟩ := ha.lex
    rw [Descent.element, bind_apply hr₁, current_bind, ha₁.current] at hq
    cases ha₁
    split at hq
    case isFalse => cases hq
    case isTrue hs =>
      obtain ⟨a, hmk⟩ := (ho.iff _).mp hs
      have ⟨r₂, hc, hq⟩ := bind_ok hq
      obtain ⟨t, ts₂, su₂, ht, hout, ha₂⟩ := h.sound .fresh hc
      obtain ⟨r₃, hr₃, hcur, hcl⟩ := ha₂.close hz hk
      rw [bind_apply hr₃, current_bind, hcur] at hq
      split at hq
      case isFalse => cases hq
      case isTrue hs₂ =>
        cases hcl hs₂
        cases hq
        refine ⟨(a, t), ts₂.tail, su₂.1, ?_, by simp [hmk, hout, Except.map], .fresh⟩
        rw [next_ne_eof ho.ne_eof hs, ht, next_ne_eof hk.ne_eof hs₂, (hk.iff _).mp hs₂, hmk]
        simp
  complete {t ts} su r ha hn _ := by
    obtain ⟨a, t⟩ := t
    obtain ⟨r₁, hr₁, ha₁⟩ := ha.lex
    rw [Descent.element, bind_apply hr₁, current_bind, ha₁.current]
    cases ha₁
    have hs : kind (mk a) = opening := (ho.iff _).mpr ⟨a, rfl⟩
    have hs₂ : kind z = closing := (hk.iff _).mpr rfl
    simp only [next, List.cons_append, List.headD_cons, List.append_assoc, List.nil_append,
      List.tail_cons, hs, if_true]
    have he : Ends .any (z :: ts) (out t (store (mk a) su, zero))
        (content (store (mk a) su, zero) ⟨yield t ++ z :: ts, mk a, false⟩) :=
      h.complete .fresh (by simp at hn; omega) (by simpa [next, hs₂] using hm)
    cases hout : out t (store (mk a) su, zero) with
    | error f =>
      rw [hout] at he
      exact bind_error he
    | ok su₂ =>
      rw [hout] at he
      obtain ⟨r₂, hc, ha₂⟩ := he
      obtain ⟨r₃, hr₃, hcur, hcl⟩ := ha₂.close hz hk
      cases hcl hs₂
      rw [bind_apply hc, bind_apply hr₃, current_bind, hcur]
      simp only [next, List.headD_cons, hs₂, if_true]
      exact ⟨_, rfl, .fresh⟩

end Element

section Loops

variable {opens : κ → Bool} {item : σ → Parser τ φ σ} {yield : T → List τ}
variable {out : T → σ → Except φ σ}

theorem Guarded.optional (h : Guarded opens item n yield out) :
    Reads .any .any (Descent.optional opens item) n opens (fun t : Option T => t.elim [] yield)
      (fun t su => t.elim (.ok su) (out · su)) :=
  (Opened.guarded h).weaken.optional fun _ => id

theorem Guarded.optional_ok {f : σ → T → σ} (h : Guarded opens item n yield fun t su => .ok (f su t)) :
    Reads .any .any (Descent.optional opens item) n opens (fun t : Option T => t.elim [] yield)
      (fun t su => .ok (t.elim su (f su))) :=
  h.optional.map id (fun _ => ⟨_, rfl⟩) (fun _ => rfl) fun t => by cases t <;> rfl

-- The passes of the loop, the first one with its token lexed already.
theorem Guarded.doWhile_sound {f : ℕ} {x : σ} {s : Reader τ} (h : Guarded opens item n yield out)
    (hs : opens (kind (next ts))) (hq : doWhile opens item f x s = .ok r')
    (ha : At .ahead ts su (x, { s with pushedBack := true })) :
    ∃ (t : T) (l : List T) (ts' : _) (su' : σ), ts = (t :: l).flatMap yield ++ ts' ∧
      (t :: l).foldlM (fun su t => out t su) su = .ok su' ∧ At .lexed ts' su' r' := by
  induction f generalizing ts su x s with
  | zero      => cases hq
  | succ f hi =>
    rw [doWhile, pushBack_bind] at hq
    have ⟨r₁, hr₁, hq⟩ := bind_ok hq
    obtain ⟨t, ts₁, su₁, rfl, ho, ha₁⟩ := h.sound hs ha hr₁
    obtain ⟨r₂, hr₂, ha₂⟩ := ha₁.fresh_any.lex
    rw [bind_apply hr₂, current_bind, ha₂.current] at hq
    split at hq
    case isTrue hs₂ =>
      obtain ⟨t₂, l, ts', su', rfl, ho', ha'⟩ := hi hs₂ hq ha₂.pushBack
      exact ⟨t, t₂ :: l, ts', su', by simp, by simpa [ho, bind, Except.bind] using ho', ha'⟩
    case isFalse =>
      cases hq
      exact ⟨t, [], ts₁, su₁, by simp, by simp [ho, bind, Except.bind, pure, Except.pure], ha₂⟩

theorem Guarded.doWhile_complete {f : ℕ} {x : σ} {s : Reader τ} {t : T} {l : List T}
    (h : Guarded opens item n yield out)
    (hf : ((t :: l).flatMap yield).length ≤ f)
    (ha : At .ahead ((t :: l).flatMap yield ++ ts) su (x, { s with pushedBack := true }))
    (hn : ((t :: l).flatMap yield).length ≤ n) (hm : opens (kind (next ts)) = false) :
    Ends .lexed ts ((t :: l).foldlM (fun su t => out t su) su)
      (doWhile opens item f x s) := by
  induction f generalizing t l su x s with
  | zero =>
    obtain ⟨x, xs, hx, _⟩ := h.starts t
    simp [hx] at hf
  | succ f hi =>
    obtain ⟨x, xs, hx, _⟩ := h.starts t
    simp only [List.flatMap_cons, List.append_assoc, List.length_append] at ha hn hf
    rw [doWhile, pushBack_bind, List.foldlM_cons]
    refine (h.complete ha (by omega)).bind fun su₁ r₁ _ ha₁ => ?_
    obtain ⟨r₂, hr₂, ha₂⟩ := ha₁.fresh_any.lex
    rw [bind_apply hr₂, current_bind, ha₂.current]
    cases l with
    | nil =>
      simp only [List.flatMap_nil, List.nil_append, hm] at ha₂ ⊢
      exact ⟨r₂, rfl, ha₂⟩
    | cons t₂ l =>
      have hs : opens (kind (next ((t₂ :: l).flatMap yield ++ ts))) := by
        simpa using h.opens_next t₂ (l.flatMap yield ++ ts)
      simp only [hs, if_true]
      refine hi ?_ ha₂.pushBack (by omega)
      rw [hx] at hf
      simp at hf ⊢
      omega

theorem Guarded.loop (h : Guarded opens item n yield out) :
    Opened .any opens (Descent.loop opens item) n opens
      (fun l : T × List T => (l.1 :: l.2).flatMap yield)
      (fun l su => (l.1 :: l.2).foldlM (fun su t => out t su) su) where
  starts l ts _ := by simpa using h.opens_next l.1 (l.2.flatMap yield ++ ts)
  sound {ts su r r'} hs ha hq := by
    rw [Descent.loop, remaining_bind] at hq
    have ⟨r₂, hr₂, hq⟩ := bind_ok hq
    have ha' : At .ahead ts su (r.1, { r.2 with pushedBack := true }) := ha.pushBack
    obtain ⟨t, l, ts', su', ht, ho, ha₂⟩ := h.doWhile_sound hs hr₂ ha'
    cases hq
    exact ⟨(t, l), ts', su', ht, ho, ha₂.pushBack.ahead_any⟩
  complete {l ts} su r ha hn hm := by
    have hf : ((l.1 :: l.2).flatMap yield).length ≤ r.2.rest.length + 1 := by
      cases ha
      simp only [List.length_tail, List.length_append]
      omega
    have he : Ends .lexed ts ((l.1 :: l.2).foldlM (fun su t => out t su) su)
        (doWhile opens item (r.2.rest.length + 1) r.1 r.2) :=
      h.doWhile_complete hf ha.pushBack hn hm
    rw [Descent.loop, remaining_bind]
    cases ho : (l.1 :: l.2).foldlM (fun su t => out t su) su with
    | error f =>
      rw [ho] at he
      exact bind_error he
    | ok su' =>
      rw [ho] at he
      obtain ⟨r₂, hr₂, ha₂⟩ := he
      exact ⟨_, bind_apply hr₂, ha₂.pushBack.ahead_any⟩

-- The passes of a loop that may have none.
def passes : List T → Option (T × List T)
  | []     => none
  | t :: l => some (t, l)

theorem Guarded.many (h : Guarded opens item n yield out) :
    Reads .any .any (Descent.many opens item) n opens (fun l : List T => l.flatMap yield)
      (fun l su => l.foldlM (fun su t => out t su) su) := by
  refine (h.loop.optional fun _ => id).map passes (fun {t} _ _ _ => ?_) ?_ ?_
  · cases t with
    | none   => exact ⟨[], rfl⟩
    | some l => exact ⟨l.1 :: l.2, rfl⟩
  · intro l
    cases l <;> rfl
  · intro l
    cases l <;> rfl

-- A loop with something in front of it that may be missing, but not both.
theorem Guarded.optional_many {opens₁ : κ → Bool} {q₁ : σ → Parser τ φ σ} {yield₁ : T₁ → List τ}
    {out₁ : T₁ → σ → Except φ σ} (h₁ : Guarded opens₁ q₁ n yield₁ out₁)
    (h : Guarded opens item n yield out) (hd : ∀ k, opens k → opens₁ k = false) :
    Opened .any (fun k => opens₁ k || opens k)
      (fun su => Descent.optional opens₁ q₁ su >>= Descent.many opens item) n opens
      (Sum.elim (fun t : T₁ × List T => yield₁ t.1 ++ t.2.flatMap yield)
        fun l : T × List T => (l.1 :: l.2).flatMap yield)
      (Sum.elim (fun t su => out₁ t.1 su >>= fun su => t.2.foldlM (fun su t => out t su) su)
        fun l su => (l.1 :: l.2).foldlM (fun su t => out t su) su) := by
  refine .split ((h₁.seq h.many.fresh).congr fun {ts su r} hs ha => ?_)
    (h.loop.congr fun {ts su r} hs ha => ?_)
  · simp only [bind, StateT.bind, optional_pos ha hs]
  · rw [bind_apply (optional_neg ha (hd _ hs))]
    exact optional_pos ha hs

theorem foldlM_ok {f : σ → T → σ} (l : List T) (su : σ) :
    l.foldlM (fun su t => (.ok (f su t) : Except φ σ)) su = .ok (l.foldl f su) := by
  induction l generalizing su with
  | nil       => rfl
  | cons t l hi => exact hi (f su t)

-- A loop whose passes cannot fail.
theorem Guarded.many_ok {f : σ → T → σ} (h : Guarded opens item n yield fun t su => .ok (f su t)) :
    Reads .any .any (Descent.many opens item) n opens (fun l : List T => l.flatMap yield)
      (fun l su => .ok (l.foldl f su)) :=
  h.many.map id (fun _ => ⟨_, rfl⟩) (fun _ => rfl) fun l => funext fun su => (foldlM_ok l su).symm

end Loops
end Descent
