import Mathlib.Logic.Function.Iterate
import Sfcc.Lib.Descent.Basic

namespace Descent

-- A lexer, with the tokens it returns one after the other until it returns `eof` or fails.
structure Source (S τ ε : Type) {κ : Type} [Token τ κ] where
  lexer  : S → Except ε (τ × S)
  tokens : S → List τ
  cons   : ∀ {s s' t}, lexer s = .ok (t, s') → t ≠ eof → tokens s = t :: tokens s'
  nil    : ∀ {s}, (∀ t s', lexer s = .ok (t, s') → t = eof) → tokens s = []

namespace Source

variable {S τ ε κ : Type} [Token τ κ] (src : Source S τ ε)

-- A lexer that fails stays where it was.
def step (s : S) : S :=
  (src.lexer s).toOption.elim s Prod.snd

-- What the first calls return.
def results (n : ℕ) (s : S) : List (Except ε τ) :=
  (List.range n).map fun k => (src.lexer (src.step^[k] s)).map Prod.fst

end Source

-- What the calls of the lexer have returned is in the `log`, the last of them first.
structure Driver (S τ ε : Type) where
  source     : S
  current    : τ
  pushedBack : Bool := false
  log        : List (Except ε τ) := []

-- Why a run ends before it has a result.
inductive Stop (τ φ ε : Type)
  | lexer (e : ε)
  | parseError (expected : String) (found : τ)
  | fault (f : φ)

section

variable {S τ κ φ ε σ α : Type} [Token τ κ]

def IsToken (r : Except ε τ) : Prop :=
  ∃ t, r = .ok t ∧ t ≠ eof

namespace Driver

-- The lexer has not come to its end.
def Going (d : Driver S τ ε) : Prop :=
  ∀ r ∈ d.log.head?, IsToken r

-- The lexer was not called again after it had come to its end.
def Once (d : Driver S τ ε) : Prop :=
  ∀ r ∈ d.log.tail, IsToken r

end Driver

-- The runs of a parser that calls the lexer where it lexes. No run is out of fuel: `remaining` is the
-- number of tokens that the lexer is still going to return, and it has to be enough.
inductive Runs (src : Source S τ ε) : {α : Type} → Parser τ φ α → Driver S τ ε → Except (Stop τ φ ε) α → Driver S τ ε → Prop
  | pure {α : Type} {a : α} {d} :
    Runs src (pure a) d (.ok a) d
  | bind {α β : Type} {x : Parser τ φ α} {f : α → Parser τ φ β} {a d d₁ o d'} :
    Runs src x d (.ok a) d₁ → Runs src (f a) d₁ o d' → Runs src (x >>= f) d o d'
  | stopped {α β : Type} {x : Parser τ φ α} {f : α → Parser τ φ β} {e d d'} :
    Runs src x d (.error e) d' → Runs src (x >>= f) d (.error e) d'
  | repeated {σ : Type} [Store τ σ] {su : σ} {d} :
    d.pushedBack = true → Runs src (lex su) d (.ok su) { d with pushedBack := false }
  | lexed {σ : Type} [Store τ σ] {su : σ} {d t s} :
    d.pushedBack = false → src.lexer d.source = .ok (t, s) →
      Runs src (lex su) d (.ok (store t su)) ⟨s, t, false, .ok t :: d.log⟩
  | failed {σ : Type} [Store τ σ] {su : σ} {d e} :
    d.pushedBack = false → src.lexer d.source = .error e →
      Runs src (lex su) d (.error (.lexer e)) { d with log := .error e :: d.log }
  | current {d} :
    Runs src current d (.ok d.current) d
  | remaining {d} :
    d.Going → Runs src remaining d (.ok (src.tokens d.source).length) d
  | pushBack {d} :
    Runs src pushBack d (.ok ()) { d with pushedBack := true }
  | parseError {α : Type} {expected d} :
    Runs src (parseError expected : Parser τ φ α) d (.error (.parseError expected d.current)) d
  | done {σ : Type} {g : σ → Except φ σ} {su su' d} :
    g su = .ok su' → Runs src (act g su) d (.ok su') d
  | fault {σ : Type} {g : σ → Except φ σ} {su f d} :
    g su = .error f → Runs src (act g su) d (.error (.fault f)) d

variable (src : Source S τ ε) (N : ℕ)

-- The tokens that can still be lexed, with the one that was pushed back.
def left (d : Driver S τ ε) : ℕ :=
  (src.tokens d.source).length + if d.pushedBack then 1 else 0

-- There were `N` tokens in the beginning.
structure Live (d : Driver S τ ε) : Prop where
  tokens : ∀ r ∈ d.log, IsToken r
  count  : d.log.length + (src.tokens d.source).length ≤ N

structure Bounded (d : Driver S τ ε) : Prop where
  once  : d.Once
  calls : d.log.length ≤ N + 1

-- The lexer has returned `eof`.
structure Ended (d : Driver S τ ε) : Prop extends Bounded N d where
  current : d.current = eof

structure Over (d : Driver S τ ε) : Prop extends Ended N d where
  pushedBack : d.pushedBack = true

-- There is a run that ends, and where it has a result, it leaves what is stated.
def Settles (p : Parser τ φ α) (d : Driver S τ ε) (Q : Driver S τ ε → Prop) : Prop :=
  ∃ o d', Runs src p d o d' ∧ Bounded N d' ∧ ∀ a, o = .ok a → Q d'

-- Of `l` tokens at least `n` have been taken. Where there may be none, they may have run out.
def Taken (n l : ℕ) (d : Driver S τ ε) : Prop :=
  Live src N d ∧ left src d + n ≤ l ∨ n = 0 ∧ Over N d

-- A production that settles wherever there are less than `k` tokens, and takes `n` of them or more.
def Takes (k n : ℕ) (p : σ → Parser τ φ σ) : Prop :=
  ∀ su d, Live src N d → left src d < k → Settles src N (p su) d (Taken src N n (left src d))

-- A production that is called with its first token pushed back.
def Resumes (k n : ℕ) (p : σ → Parser τ φ σ) : Prop :=
  ∀ su d, Live src N d → d.pushedBack = true → left src d < k →
    Settles src N (p su) d (Taken src N n (left src d))

-- A production that may be called behind one that has run out of tokens.
structure Follows (k : ℕ) (p : σ → Parser τ φ σ) : Prop where
  takes  : Takes src N k 0 p
  behind : ∀ su d, Over N d → Settles src N (p su) d (Over N)

-- A production that is called with its first token lexed.
structure Decides (k n : ℕ) (a : σ → Parser τ φ σ) : Prop where
  ended : ∀ su d, Ended N d → Settles src N (a su) d fun _ => False
  live  : ∀ su d, Live src N d → (src.tokens d.source).length + 1 < k →
    Settles src N (a su) d (Taken src N n ((src.tokens d.source).length + 1))

-- The tokens of the lexer are those of the reader.
structure Ahead (d : Driver S τ ε) (r : Reader τ) : Prop where
  current    : r.current = d.current
  pushedBack : r.pushedBack = d.pushedBack
  going      : d.Going → r.rest = src.tokens d.source
  ended      : ¬ d.Going → r.rest = []

-- How a parser ends on these tokens where the run ends with `o`. A lexer that fails is left out.
def Parsed (o : Except (Stop τ φ ε) α) (d : Driver S τ ε) (x : Except (Failure τ φ) (α × Reader τ)) : Prop :=
  match o with
  | .ok a                   => ∃ r, x = .ok (a, r) ∧ Ahead src d r
  | .error (.parseError e t) => x = .error (.parseError e t)
  | .error (.fault f)        => x = .error (.fault f)
  | .error (.lexer _)        => True

end

variable {S τ κ φ ε σ υ δ α β : Type} [Token τ κ]
variable {src : Source S τ ε} {N k k' n n' l l' : ℕ} {d : Driver S τ ε} {Q : Driver S τ ε → Prop}

namespace Source

theorem tokens_nil {s s' : S} (h : src.lexer s = .ok (eof, s')) : src.tokens s = [] := by
  refine src.nil fun t s₁ ht => ?_
  cases h.symm.trans ht
  rfl

theorem next_tokens {s s' : S} {t : τ} (h : src.lexer s = .ok (t, s')) : next (src.tokens s) = t := by
  by_cases ht : t = eof
  · subst ht
    rw [src.tokens_nil h]
    rfl
  · rw [src.cons h ht]
    rfl

theorem results_add {n m : ℕ} {s : S} : src.results (n + m) s = src.results n s ++ src.results m (src.step^[n] s) := by
  simp only [results, List.range_add, List.map_append, List.map_map, Function.comp_def, ← Function.iterate_add_apply]
  simp only [Nat.add_comm]

end Source

namespace Runs

variable {p : Parser τ φ α} {o : Except (Stop τ φ ε) α} {d' : Driver S τ ε} {r : Reader τ}

-- The calls are made one after the other.
theorem calls (h : Runs src p d o d') :
    ∃ n, d'.source = src.step^[n] d.source ∧ d'.log = (src.results n d.source).reverse ++ d.log := by
  induction h with
  | bind _ _ hi hi' =>
    obtain ⟨n, hs, hl⟩ := hi
    obtain ⟨m, hs', hl'⟩ := hi'
    refine ⟨n + m, ?_, ?_⟩
    · rw [hs', hs, ← Function.iterate_add_apply, Nat.add_comm]
    · rw [hl', hl, hs, Source.results_add, List.reverse_append, List.append_assoc]
  | stopped _ hi    => exact hi
  | lexed _ hs      =>
    refine ⟨1, ?_, ?_⟩
    · simp [Source.step, hs, Except.toOption]
    · simp [Source.results, hs, Except.map]
  | failed _ hs     =>
    refine ⟨1, ?_, ?_⟩
    · simp [Source.step, hs, Except.toOption]
    · simp [Source.results, hs, Except.map]
  | _               => exact ⟨0, rfl, rfl⟩

theorem mem_log (h : Runs src p d o d') (hd : d.log = []) {r : Except ε τ} :
    r ∈ d'.log ↔ ∃ n < d'.log.length, r = (src.lexer (src.step^[n] d.source)).map Prod.fst := by
  obtain ⟨n, _, hl⟩ := h.calls
  rw [hd, List.append_nil] at hl
  have hn : d'.log.length = n := by rw [hl, List.length_reverse, Source.results, List.length_map, List.length_range]
  rw [hn, hl, List.mem_reverse, Source.results, List.mem_map]
  refine exists_congr fun k => ?_
  rw [List.mem_range]
  exact and_congr_right fun _ => eq_comm

theorem once (h : Runs src p d o d') (hd : d'.Once) : d.Once := by
  obtain ⟨n, _, hl⟩ := h.calls
  intro r hr
  refine hd r ?_
  rw [hl]
  cases (src.results n d.source).reverse with
  | nil      => exact hr
  | cons _ l => exact List.mem_append_right l (List.mem_of_mem_tail hr)

-- Had all the tokens been lexed in advance, the parser would end in the same way.
theorem parses (h : Runs src p d o d') (hd : d'.Once) (hr : Ahead src d r) : Parsed src o d' (p r) := by
  induction h generalizing r with
  | pure             => exact ⟨r, rfl, hr⟩
  | bind _ h' hi hi' =>
    obtain ⟨r₁, hx, hr₁⟩ := hi (h'.once hd) hr
    rw [bind_apply hx]
    exact hi' hd hr₁
  | @stopped _ _ _ _ e _ _ _ hi =>
    cases e with
    | lexer      => exact trivial
    | parseError => exact bind_error (hi hd hr)
    | fault      => exact bind_error (hi hd hr)
  | repeated hp      =>
    have hp' : r.pushedBack = true := hr.pushedBack.trans hp
    exact ⟨{ r with pushedBack := false }, by rw [lex, if_pos hp'], hr.current, rfl, hr.going, hr.ended⟩
  | @lexed _ _ su d t s hp hs =>
    have hp' : ¬ r.pushedBack = true := by
      rw [hr.pushedBack, hp]
      exact Bool.false_ne_true
    have hn : r.rest = src.tokens d.source := hr.going fun r hr => hd r (List.mem_of_mem_head? hr)
    have ht : next r.rest = t := by
      rw [hn]
      exact src.next_tokens hs
    refine ⟨⟨r.rest.tail, t, false⟩, by rw [lex, if_neg hp', ht], rfl, rfl, fun hg => ?_, fun hg => ?_⟩
    · obtain ⟨t', ht', hne⟩ := hg (.ok t) rfl
      cases ht'
      rw [hn, src.cons hs hne]
      rfl
    · have he : t = eof := by
        by_contra hne
        refine hg fun r hr => ⟨t, ?_, hne⟩
        cases hr
        rfl
      rw [hn, src.tokens_nil (he ▸ hs)]
      rfl
  | failed           => exact trivial
  | current          => exact ⟨r, by rw [Descent.current, hr.current], hr⟩
  | remaining hg     => exact ⟨r, by rw [Descent.remaining, hr.going hg], hr⟩
  | pushBack         => exact ⟨{ r with pushedBack := true }, rfl, hr.current, rfl, hr.going, hr.ended⟩
  | parseError       =>
    rw [← hr.current]
    rfl
  | done hg          => exact ⟨r, by rw [act, hg], hr⟩
  | @fault _ _ su f _ hg =>
    rw [act, hg]
    rfl

end Runs

namespace Live

theorem bounded (h : Live src N d) : Bounded N d where
  once r hr := h.tokens r (List.mem_of_mem_tail hr)
  calls     := by
    have := h.count
    omega

theorem going (h : Live src N d) : d.Going := by
  intro r hr
  exact h.tokens r (List.mem_of_mem_head? hr)

theorem pushBack (h : Live src N d) : Live src N { d with pushedBack := true } :=
  ⟨h.tokens, h.count⟩

end Live

theorem Ended.not_opens {opens : κ → Bool} (h : Ended N d) (ho : opens (kind (eof : τ)) = false) :
    ¬ opens (kind d.current) = true := by
  rw [h.current, ho]
  exact Bool.false_ne_true

theorem Ended.kind_ne {a : κ} (h : Ended N d) (ha : a ≠ kind (eof : τ)) : kind d.current ≠ a := by
  rw [h.current]
  exact ha.symm

theorem Ended.pushBack (h : Ended N d) : Over N { d with pushedBack := true } :=
  ⟨⟨⟨h.once, h.calls⟩, h.current⟩, rfl⟩

theorem left_lexed (h : d.pushedBack = false) : left src d = (src.tokens d.source).length := by
  rw [left, h]
  rfl

theorem left_pushed (h : d.pushedBack = true) : left src d = (src.tokens d.source).length + 1 := by
  rw [left, h]
  rfl

theorem left_pushBack : left src { d with pushedBack := true } = (src.tokens d.source).length + 1 :=
  rfl

theorem left_le : left src d ≤ (src.tokens d.source).length + 1 := by
  rw [left]
  split <;> omega

namespace Taken

theorem bounded (h : Taken src N n l d) : Bounded N d := by
  obtain ⟨h, _⟩ | ⟨_, h⟩ := h
  · exact h.bounded
  · exact h.toBounded

theorem mono (h : Taken src N n l d) (hn : n' ≤ n) (hl : l ≤ l') : Taken src N n' l' d := by
  obtain ⟨h, ht⟩ | ⟨hz, h⟩ := h
  · exact .inl ⟨h, by omega⟩
  · exact .inr ⟨by omega, h⟩

theorem live (h : Taken src N (n + 1) l d) : Live src N d ∧ left src d + (n + 1) ≤ l := by
  obtain h | ⟨hz, _⟩ := h
  · exact h
  · exact absurd hz (Nat.succ_ne_zero n)

end Taken

namespace Settles

variable {x : Parser τ φ α} {f : α → Parser τ φ β} {P : Driver S τ ε → Prop}

theorem weaken (h : Settles src N x d P) (hw : ∀ d', P d' → Q d') : Settles src N x d Q := by
  obtain ⟨o, d', hr, hb, hp⟩ := h
  exact ⟨o, d', hr, hb, fun a ha => hw d' (hp a ha)⟩

theorem stops {e : Stop τ φ ε} {d' : Driver S τ ε} (hr : Runs src x d (.error e) d') (hb : Bounded N d') :
    Settles src N x d Q := by
  refine ⟨.error e, d', hr, hb, fun _ h => ?_⟩
  cases h

theorem pure {a : α} (hb : Bounded N d) (h : Q d) : Settles src N (pure a : Parser τ φ α) d Q :=
  ⟨.ok a, d, .pure, hb, fun _ _ => h⟩

theorem bind (hx : Settles src N x d P) (hf : ∀ a d', P d' → Settles src N (f a) d' Q) : Settles src N (x >>= f) d Q := by
  obtain ⟨o, d₁, hr, hb, hp⟩ := hx
  cases o with
  | error e => exact stops (.stopped hr) hb
  | ok a    =>
    obtain ⟨o, d', hr', h⟩ := hf a d₁ (hp a rfl)
    exact ⟨o, d', .bind hr hr', h⟩

theorem current {f : τ → Parser τ φ β} (h : Settles src N (f d.current) d Q) : Settles src N (current >>= f) d Q := by
  obtain ⟨o, d', hr, h⟩ := h
  exact ⟨o, d', .bind .current hr, h⟩

theorem pushBack {f : Unit → Parser τ φ β} (h : Settles src N (f ()) { d with pushedBack := true } Q) :
    Settles src N (pushBack >>= f) d Q := by
  obtain ⟨o, d', hr, h⟩ := h
  exact ⟨o, d', .bind .pushBack hr, h⟩

theorem remaining {f : ℕ → Parser τ φ β} (hg : d.Going) (h : Settles src N (f (src.tokens d.source).length) d Q) :
    Settles src N (remaining >>= f) d Q := by
  obtain ⟨o, d', hr, h⟩ := h
  exact ⟨o, d', .bind (.remaining hg) hr, h⟩

theorem parseError {expected : String} (hb : Bounded N d) : Settles src N (parseError expected : Parser τ φ α) d Q :=
  stops .parseError hb

theorem act {g : σ → Except φ σ} {su : σ} (hb : Bounded N d) (h : Q d) : Settles src N (act g su) d Q := by
  cases hg : g su with
  | error f => exact stops (.fault hg) hb
  | ok su'  => exact ⟨_, d, .done hg, hb, fun _ _ => h⟩

theorem focus {p : δ → Parser τ φ δ} {get : σ → δ} {set : δ → σ → σ} {su : σ}
    (h : Settles src N (p (get su)) d Q) (hq : ∀ d', Q d' → Bounded N d') : Settles src N (focus get set p su) d Q :=
  h.bind fun _ d' h' => .pure (hq d' h') h'

variable [Store τ σ]

-- A call that returns a token leaves one less. After `eof` there is nothing to be pushed back.
theorem lex {su : σ} (h : Live src N d) : Settles src N (lex su : Parser τ φ σ) d fun d' =>
    Ended N d' ∨ Live src N d' ∧ (src.tokens d'.source).length + 1 ≤ left src d ∧ d'.pushedBack = false := by
  cases hp : d.pushedBack with
  | true  =>
    have hl : Live src N { d with pushedBack := false } := ⟨h.tokens, h.count⟩
    exact ⟨_, _, .repeated hp, hl.bounded, fun _ _ => .inr ⟨hl, Nat.le_of_eq (left_pushed hp).symm, rfl⟩⟩
  | false =>
    have hc := h.count
    cases hs : src.lexer d.source with
    | error e => exact stops (.failed hp hs) ⟨h.tokens, by simp only [List.length_cons]; omega⟩
    | ok y    =>
      obtain ⟨t, s⟩ := y
      refine ⟨_, _, .lexed hp hs, ⟨h.tokens, by simp only [List.length_cons]; omega⟩, fun _ _ => ?_⟩
      by_cases ht : t = eof
      · exact .inl ⟨⟨h.tokens, by simp only [List.length_cons]; omega⟩, ht⟩
      · have hn := src.cons hs ht
        have hd : left src d = (src.tokens s).length + 1 := by rw [left_lexed hp, hn, List.length_cons]
        rw [hn, List.length_cons] at hc
        refine .inr ⟨⟨?_, by simp only [List.length_cons]; omega⟩, Nat.le_of_eq hd.symm, rfl⟩
        intro r hr
        cases List.mem_cons.mp hr with
        | inl hr => exact ⟨t, hr, ht⟩
        | inr hr => exact h.tokens r hr

theorem lex_over {su : σ} (h : Over N d) : Settles src N (Descent.lex su : Parser τ φ σ) d (Ended N) :=
  ⟨_, _, .repeated h.pushedBack, ⟨h.once, h.calls⟩, fun _ _ => ⟨⟨h.once, h.calls⟩, h.current⟩⟩

end Settles

section

variable {p q : σ → Parser τ φ σ}

theorem Takes.mono (h : Takes src N k n p) (hk : k' ≤ k) (hn : n' ≤ n) : Takes src N k' n' p := by
  intro su d hl hd
  exact (h su d hl (by omega)).weaken fun _ ht => ht.mono hn (Nat.le_refl _)

theorem Takes.less (h : Takes src N (k + 1) n p) : Takes src N k n p :=
  h.mono (Nat.le_succ k) (Nat.le_refl n)

theorem Takes.weaken (h : Takes src N k n p) : Takes src N k 0 p :=
  h.mono (Nat.le_refl k) (Nat.zero_le n)

theorem Takes.resumes (h : Takes src N k n p) : Resumes src N k n p := by
  intro su d hl _ hd
  exact h su d hl hd

theorem Follows.resumes (h : Follows src N k p) : Resumes src N k 0 p :=
  h.takes.resumes

theorem takes_pure : Takes src N k 0 (pure : σ → Parser τ φ σ) := by
  intro su d hl _
  exact .pure hl.bounded (.inl ⟨hl, Nat.le_refl _⟩)

theorem takes_act (g : σ → Except φ σ) : Takes src N k 0 (act g) := by
  intro su d hl _
  exact .act hl.bounded (.inl ⟨hl, Nat.le_refl _⟩)

-- The second of two productions is only called where the first has left tokens.
theorem Takes.seq (hp : Takes src N k (n + 1) p) (hq : Takes src N k n' q) :
    Takes src N k n' fun su => p su >>= q := by
  intro su d hl hd
  refine (hp su d hl hd).bind fun su' d' ht => ?_
  obtain ⟨hl', hle⟩ := ht.live
  exact (hq su' d' hl' (by omega)).weaken fun _ ht' => ht'.mono (Nat.le_refl _) (by omega)

theorem Follows.seq (hp : Follows src N k p) (hq : Follows src N k q) :
    Follows src N k fun su => p su >>= q where
  takes su d hl hd := by
    refine (hp.takes su d hl hd).bind fun su' d' ht => ?_
    obtain ⟨hl', hle⟩ | ⟨_, ho⟩ := ht
    · exact (hq.takes su' d' hl' (by omega)).weaken fun _ ht' => ht'.mono (Nat.le_refl _) (by omega)
    · exact (hq.behind su' d' ho).weaken fun _ ho' => .inr ⟨rfl, ho'⟩
  behind su d ho := (hp.behind su d ho).bind fun su' d' ho' => hq.behind su' d' ho'

theorem Takes.act (h : Takes src N k n p) (g : σ → Except φ σ) : Takes src N k n fun su => p su >>= act g := by
  intro su d hl hd
  exact (h su d hl hd).bind fun _ _ ht => .act ht.bounded ht

theorem Resumes.act (h : Resumes src N k n p) (g : σ → Except φ σ) :
    Resumes src N k n fun su => p su >>= Descent.act g := by
  intro su d hl hp hd
  exact (h su d hl hp hd).bind fun _ _ ht => .act ht.bounded ht

end

section

variable {p : δ → Parser τ φ δ} {get : σ → δ} {set : δ → σ → σ}

theorem Takes.focus (h : Takes src N k n p) : Takes src N k n (focus get set p) := by
  intro su d hl hd
  exact (h (get su) d hl hd).focus fun _ ht => ht.bounded

theorem Resumes.focus (h : Resumes src N k n p) : Resumes src N k n (Descent.focus get set p) := by
  intro su d hl hp hd
  exact (h (get su) d hl hp hd).focus fun _ ht => ht.bounded

end

section

variable [Store τ σ] {p q : σ → Parser τ φ σ} {opens : κ → Bool}

-- The opening token is taken before the content is parsed, and none of the tags is `eof`.
theorem Takes.element [DecidableEq κ] [Store τ υ] {opening closing : κ} {expOpening expClosing : String} {zero : υ}
    {content : σ × υ → Parser τ φ (σ × υ)} (h : Takes src N k n content)
    (ho : opening ≠ kind (eof : τ)) (hc : closing ≠ kind (eof : τ)) :
    Takes src N (k + 1) 1 (element opening closing expOpening expClosing zero content) := by
  intro su d hl hd
  refine (Settles.lex hl).bind fun su₁ d₁ h₁ => .current ?_
  obtain h₁ | ⟨hl₁, hn₁, hp₁⟩ := h₁
  · rw [if_neg (h₁.kind_ne ho)]
    exact .parseError h₁.toBounded
  · split
    case isFalse => exact .parseError hl₁.bounded
    case isTrue  =>
      have hd₁ : left src d₁ = (src.tokens d₁.source).length := left_lexed hp₁
      refine (h (su₁, zero) d₁ hl₁ (by omega)).bind fun f d₂ h₂ => ?_
      have h₃ : Settles src N (lex f.1 : Parser τ φ σ) d₂ fun d' =>
          Ended N d' ∨ Live src N d' ∧ left src d' + 1 ≤ left src d := by
        obtain ⟨hl₂, hn₂⟩ | ⟨_, ho₂⟩ := h₂
        · refine (Settles.lex hl₂).weaken fun d₃ h₃ => h₃.imp_right fun h₃ => ⟨h₃.1, ?_⟩
          obtain ⟨_, hn₃, hp₃⟩ := h₃
          rw [left_lexed hp₃]
          omega
        · exact (Settles.lex_over ho₂).weaken fun _ => .inl
      refine h₃.bind fun su₃ d₃ h₃ => .current ?_
      obtain h₃ | ⟨hl₃, hn₃⟩ := h₃
      · rw [if_neg (h₃.kind_ne hc)]
        exact .parseError h₃.toBounded
      · split
        · exact .pure hl₃.bounded (.inl ⟨hl₃, hn₃⟩)
        · exact .parseError hl₃.bounded

theorem Follows.optional (ho : opens (kind (eof : τ)) = false) (h : Resumes src N k n p) :
    Follows src N k (optional opens p) where
  takes su d hl hd := by
    refine (Settles.lex hl).bind fun su₁ d₁ h₁ => .pushBack (.current ?_)
    obtain h₁ | ⟨hl₁, hn₁, _⟩ := h₁
    · rw [if_neg (h₁.not_opens ho)]
      exact .pure h₁.pushBack.toBounded (.inr ⟨rfl, h₁.pushBack⟩)
    · split
      · refine (h su₁ _ hl₁.pushBack rfl ?_).weaken fun _ ht => ht.mono (Nat.zero_le n) hn₁
        rw [left_pushBack]
        omega
      · exact .pure hl₁.pushBack.bounded (.inl ⟨hl₁.pushBack, hn₁⟩)
  behind su d hv := by
    refine (Settles.lex_over hv).bind fun su₁ d₁ h₁ => .pushBack (.current ?_)
    rw [if_neg (h₁.not_opens ho)]
    exact .pure h₁.pushBack.toBounded h₁.pushBack

-- Each turn takes a token, so there are at most as many turns as tokens.
theorem Resumes.doWhile (ho : opens (kind (eof : τ)) = false) (h : Resumes src N k 1 p) (m : ℕ) (su : σ)
    (hl : Live src N d) (hm : (src.tokens d.source).length < m) (hk : (src.tokens d.source).length + 1 < k) :
    Settles src N (doWhile opens p m su) d fun d' =>
      Ended N d' ∨ Live src N d' ∧ (src.tokens d'.source).length ≤ (src.tokens d.source).length := by
  induction m generalizing su d with
  | zero      => exact absurd hm (Nat.not_lt_zero _)
  | succ m hi =>
    refine .pushBack ((h su _ hl.pushBack rfl hk).bind fun su₁ d₁ h₁ => ?_)
    obtain ⟨hl₁, hn₁⟩ := h₁.live
    rw [left_pushBack] at hn₁
    refine (Settles.lex hl₁).bind fun su₂ d₂ h₂ => .current ?_
    obtain h₂ | ⟨hl₂, hn₂, _⟩ := h₂
    · rw [if_neg (h₂.not_opens ho)]
      exact .pure h₂.toBounded (.inl h₂)
    · split
      · refine (hi su₂ hl₂ (by omega) (by omega)).weaken fun d₃ h₃ => h₃.imp_right fun h₃ => ⟨h₃.1, ?_⟩
        have := h₃.2
        omega
      · exact .pure hl₂.bounded (.inr ⟨hl₂, by omega⟩)

theorem Resumes.loop (ho : opens (kind (eof : τ)) = false) (h : Resumes src N k 1 p) :
    Resumes src N k 0 (loop opens p) := by
  intro su d hl hp hd
  rw [left_pushed hp] at hd ⊢
  refine .remaining hl.going ((h.doWhile ho _ su hl (Nat.lt_succ_self _) hd).bind fun su₁ d₁ h₁ => ?_)
  refine .pushBack ?_
  obtain h₁ | ⟨hl₁, hn₁⟩ := h₁
  · exact .pure h₁.pushBack.toBounded (.inr ⟨rfl, h₁.pushBack⟩)
  · refine .pure hl₁.pushBack.bounded (.inl ⟨hl₁.pushBack, ?_⟩)
    rw [left_pushBack]
    omega

theorem Follows.many (ho : opens (kind (eof : τ)) = false) (h : Resumes src N k 1 p) :
    Follows src N k (many opens p) :=
  .optional ho (h.loop ho)

theorem Takes.choice (h : Decides src N k n p) : Takes src N k n (choice p) := by
  intro su d hl hd
  refine (Settles.lex hl).bind fun su₁ d₁ h₁ => ?_
  obtain h₁ | ⟨hl₁, hn₁, _⟩ := h₁
  · exact (h.ended su₁ d₁ h₁).weaken fun _ hf => hf.elim
  · exact (h.live su₁ d₁ hl₁ (by omega)).weaken fun _ ht => ht.mono (Nat.le_refl _) hn₁

end

section

variable {p q : σ → Parser τ φ σ} {opens : κ → Bool}

-- The depth of the recursion is bounded by the tokens as well: it takes some of them.
theorem Takes.fueled {p : ℕ → σ → Parser τ φ σ} (h : ∀ m, Takes src N (2 * m) 1 (p m)) :
    Takes src N k 1 (fueled p) := by
  intro su d hl _
  refine .remaining hl.going (h _ su d hl ?_)
  have : left src d ≤ (src.tokens d.source).length + 1 := left_le
  omega

theorem Decides.arm (ho : opens (kind (eof : τ)) = false) (hp : Resumes src N k n p) (hq : Decides src N k n q) :
    Decides src N k n (arm opens p q) where
  ended su d h := by
    refine .current ?_
    rw [if_neg (h.not_opens ho)]
    exact hq.ended su d h
  live su d hl hd := by
    refine .current ?_
    split
    · exact .pushBack (hp su _ hl.pushBack rfl hd)
    · exact hq.live su d hl hd

theorem Decides.parseError {expected : String} :
    Decides src N k n fun _ => (parseError expected : Parser τ φ σ) where
  ended _ _ h   := .parseError h.toBounded
  live _ _ hl _ := .parseError hl.bounded

-- The token that was pushed back is the one the arms look at.
theorem Decides.resumes (h : Decides src N k n p) : Resumes src N k n p := by
  intro su d hl hp hd
  rw [left_pushed hp] at hd ⊢
  exact h.live su d hl hd

end

end Descent
