import Mathlib.Data.List.Infix
import Mathlib.Data.List.TakeWhile

-- Trees of elements that are written as text, and how they are read again.
namespace Markup

abbrev Text := List UInt8

-- What stands in an element that has no elements: characters, or a section of data.
inductive Leaf
  | chars (t : Text)
  | data (t : Text)
  deriving DecidableEq

inductive Node
  | leaf (name : Text) (attributes : List (Text × Text)) (content : Leaf)
  | element (name : Text) (attributes : List (Text × Text)) (children : List Node)

def isBlank (b : UInt8) : Bool :=
  b = 32 ∨ b = 9 ∨ b = 10 ∨ b = 13

def isNameByte (b : UInt8) : Bool :=
  48 ≤ b ∧ b ≤ 57 ∨ 65 ≤ b ∧ b ≤ 90 ∨ 97 ≤ b ∧ b ≤ 122 ∨ b = 45 ∨ b = 46 ∨ b = 95

def IsName (n : Text) : Prop :=
  n ≠ [] ∧ ∀ b ∈ n, isNameByte b

instance (n : Text) : Decidable (IsName n) :=
  inferInstanceAs (Decidable (_ ∧ _))

-- The tags, with `<`, `>`, `/`, `=` and `"`.

def attributes (as : List (Text × Text)) : Text :=
  as.flatMap fun a => 32 :: (a.1 ++ 61 :: 34 :: (a.2 ++ [34]))

def startTag (name : Text) (as : List (Text × Text)) : Text :=
  60 :: (name ++ (attributes as ++ [62]))

def emptyTag (name : Text) (as : List (Text × Text)) : Text :=
  60 :: (name ++ (attributes as ++ [47, 62]))

def endTag (name : Text) : Text :=
  60 :: 47 :: (name ++ [62])

-- `<![CDATA[` and `]]>`
def dataStart : Text := [60, 33, 91, 67, 68, 65, 84, 65, 91]
def dataEnd : Text := [93, 93, 62]

-- Blanks may stand around a section of data.
inductive Leaf.Writes : Leaf → Text → Prop
  | chars (t) : Writes (.chars t) t
  | data {b t b'} : (∀ c ∈ b, isBlank c) → (∀ c ∈ b', isBlank c) →
    Writes (.data t) (b ++ (dataStart ++ (t ++ (dataEnd ++ b'))))

-- What the names of attributes and elements have to be.
def Named (name : Text) (as : List (Text × Text)) : Prop :=
  IsName name ∧ ∀ a ∈ as, IsName a.1

-- A text that is put together from the tags of some trees, with blanks between them. It does not have
-- to be one that is read so.
inductive Writes (leaf : Text → Bool) : List Node → Text → Prop
  | nil : Writes leaf [] []
  | blank {b ns t} : isBlank b → Writes leaf ns t → Writes leaf ns (b :: t)
  | leaf {name as l s ns t} : leaf name → Named name as → l.Writes s → Writes leaf ns t →
    Writes leaf (.leaf name as l :: ns) (startTag name as ++ (s ++ (endTag name ++ t)))
  | empty {name as ns t} : leaf name = false → Named name as → Writes leaf ns t →
    Writes leaf (.element name as [] :: ns) (emptyTag name as ++ t)
  | element {name as cs s ns t} : leaf name = false → Named name as → Writes leaf cs s → Writes leaf ns t →
    Writes leaf (.element name as cs :: ns) (startTag name as ++ (s ++ (endTag name ++ t)))

theorem Writes.append {leaf : Text → Bool} {ns ms : List Node} {s t : Text} (h : Writes leaf ns s) (h' : Writes leaf ms t) :
    Writes leaf (ns ++ ms) (s ++ t) := by
  induction h with
  | nil                    => exact h'
  | blank hb _ ih          => exact .blank hb ih
  | leaf hl hd hw _ ih     =>
    rw [List.append_assoc, List.append_assoc, List.append_assoc]
    exact .leaf hl hd hw ih
  | empty hl hd _ ih       =>
    rw [List.append_assoc]
    exact .empty hl hd ih
  | element hl hd hc _ _ ih =>
    rw [List.append_assoc, List.append_assoc, List.append_assoc]
    exact .element hl hd hc ih

theorem Writes.indented {leaf : Text → Bool} {ns : List Node} {t : Text} (h : Writes leaf ns t) {b : Text}
    (hb : ∀ c ∈ b, isBlank c) : Writes leaf ns (b ++ t) := by
  induction b with
  | nil       => exact h
  | cons c b hi =>
    have ⟨hc, hb⟩ := List.forall_mem_cons.mp hb
    exact .blank hc (hi hb)

theorem Writes.blanks {leaf : Text → Bool} {b : Text} (hb : ∀ c ∈ b, isBlank c) : Writes leaf [] b := by
  have h : Writes leaf [] (b ++ []) := Writes.nil.indented hb
  rwa [List.append_nil] at h

-- What the characters may be, so that the tree is read from its text.

def Clean (as : List (Text × Text)) : Prop :=
  ∀ a ∈ as, 34 ∉ a.2 ∧ 60 ∉ a.2

def Leaf.Proper : Leaf → Prop
  | chars t => 60 ∉ t
  | data t  => ¬ dataEnd <:+: t

mutual

def Node.Proper : Node → Prop
  | .leaf _ as l     => Clean as ∧ l.Proper
  | .element _ as cs => Clean as ∧ Proper cs

def Proper : List Node → Prop
  | []      => True
  | n :: ns => n.Proper ∧ Proper ns

end

-- What is left of the trees without the characters of the leaves.

mutual

def Node.shape : Node → Node
  | .leaf name as _     => .leaf name as (.chars [])
  | .element name as cs => .element name as (shapes cs)

def shapes : List Node → List Node
  | []      => []
  | n :: ns => n.shape :: shapes ns

end

-- How it is read.

def skip (s t : Text) : Option Text :=
  if s.isPrefixOf t then some (t.drop s.length) else none

def readAttribute (t : Text) : Option ((Text × Text) × Text) := do
  let u ← skip [61, 34] (t.dropWhile isNameByte)
  let v ← skip [34] (u.dropWhile (· ≠ 34))
  if 60 ∈ u.takeWhile (· ≠ 34) then none else return ((t.takeWhile isNameByte, u.takeWhile (· ≠ 34)), v)

def readAttributes : ℕ → Text → Option (List (Text × Text) × Text)
  | 0, _           => none
  | n + 1, 32 :: t => do
    let (a, t) ← readAttribute t
    let (as, t) ← readAttributes n t
    return (a :: as, t)
  | _ + 1, t       => some ([], t)

-- The text in front of the first `]]>`, and the one behind it.
def splitData : Text → Option (Text × Text)
  | []     => none
  | b :: t =>
    if dataEnd.isPrefixOf (b :: t) then some ([], t.drop 2) else (splitData t).map fun (s, r) => (b :: s, r)

def readLeaf (t : Text) : Option (Leaf × Text) :=
  if dataStart.isPrefixOf (t.dropWhile isBlank) then
    (splitData ((t.dropWhile isBlank).drop dataStart.length)).map fun (s, r) => (.data s, r.dropWhile isBlank)
  else some (.chars (t.takeWhile (· ≠ 60)), t.dropWhile (· ≠ 60))

def readTag (n : ℕ) (t : Text) : Option (Text × List (Text × Text) × Text) :=
  if t.takeWhile isNameByte = [] then none
  else (readAttributes n (t.dropWhile isNameByte)).map fun (as, u) => (t.takeWhile isNameByte, as, u)

-- An end tag is not read, nor what is behind it.
def readNodes (leaf : Text → Bool) : ℕ → Text → Option (List Node × Text)
  | 0, _     => none
  | n + 1, t =>
    match t.dropWhile isBlank with
    | []            => some ([], [])
    | 60 :: 47 :: u => some ([], 60 :: 47 :: u)
    | 60 :: u       => do
      let (name, as, u) ← readTag n u
      match skip [47, 62] u with
      | some u =>
        if leaf name then none
        else
          let (ns, u) ← readNodes leaf n u
          return (.element name as [] :: ns, u)
      | none   =>
        if leaf name then
          let (l, u) ← readLeaf (← skip [62] u)
          let (ns, u) ← readNodes leaf n (← skip (endTag name) u)
          return (.leaf name as l :: ns, u)
        else
          let (cs, u) ← readNodes leaf n (← skip [62] u)
          let (ns, u) ← readNodes leaf n (← skip (endTag name) u)
          return (.element name as cs :: ns, u)
    | _             => none

def read (leaf : Text → Bool) (t : Text) : Option (List Node) :=
  match readNodes leaf (t.length + 1) t with
  | some (ns, []) => some ns
  | _             => none

variable {leaf : Text → Bool} {ns : List Node} {as : List (Text × Text)} {name s t r : Text} {n : ℕ}

theorem proper_append {ns ms : List Node} : Proper (ns ++ ms) ↔ Proper ns ∧ Proper ms := by
  induction ns with
  | nil          => rw [List.nil_append, Proper, true_and]
  | cons n ns hi =>
    rw [List.cons_append, Proper, Proper, hi, and_assoc]

theorem shapes_eq_map (ns : List Node) : shapes ns = ns.map Node.shape := by
  induction ns with
  | nil          => rfl
  | cons n ns hi => rw [shapes, hi, List.map_cons]

theorem while_append {p : UInt8 → Bool} {c : UInt8} (hs : ∀ b ∈ s, p b) (hc : p c = false) :
    (s ++ c :: r).takeWhile p = s ∧ (s ++ c :: r).dropWhile p = c :: r := by
  rw [List.takeWhile_append_of_pos hs, List.dropWhile_append_of_pos hs, List.takeWhile_cons_of_neg (by simp [hc]),
    List.dropWhile_cons_of_neg (by simp [hc]), List.append_nil]
  exact ⟨rfl, rfl⟩

theorem skip_append (s r : Text) : skip s (s ++ r) = some r := by
  rw [skip, if_pos (List.isPrefixOf_iff_prefix.mpr (List.prefix_append s r)), List.drop_left]

theorem readAttribute_append {a : Text × Text} (hn : IsName a.1) (h34 : 34 ∉ a.2) (h60 : 60 ∉ a.2) (r : Text) :
    readAttribute (a.1 ++ 61 :: 34 :: (a.2 ++ 34 :: r)) = some (a, r) := by
  have hv : ∀ b ∈ a.2, decide (b ≠ 34) = true := fun b hb => decide_eq_true fun he => h34 (he ▸ hb)
  have ⟨ht, hd⟩ := while_append (r := 34 :: (a.2 ++ 34 :: r)) hn.right (by decide : isNameByte 61 = false)
  have ⟨ht', hd'⟩ := while_append (r := r) hv (by decide : decide ((34 : UInt8) ≠ 34) = false)
  have hs : skip [61, 34] (61 :: 34 :: (a.2 ++ 34 :: r)) = some (a.2 ++ 34 :: r) := skip_append [61, 34] _
  have hs' : skip [34] (34 :: r) = some r := skip_append [34] r
  rw [readAttribute, hd, ht, hs]
  simp only [Option.bind_eq_bind, Option.bind_some, hd', ht', hs', if_neg h60]
  rfl

theorem readAttributes_append {c : UInt8} (hn : ∀ a ∈ as, IsName a.1) (hc : Clean as) (h32 : c ≠ 32)
    (hl : (attributes as).length < n) : readAttributes n (attributes as ++ c :: r) = some (as, c :: r) := by
  induction as generalizing n with
  | nil          =>
    cases n with
    | zero   => cases hl
    | succ n =>
      rw [attributes, List.flatMap_nil, List.nil_append, readAttributes]
      exact fun t he => h32 (List.cons.inj he).left
  | cons a as ih =>
    have ⟨ha, hn⟩ := List.forall_mem_cons.mp hn
    have ⟨⟨h34, h60⟩, hc⟩ := List.forall_mem_cons.mp hc
    have hs : attributes (a :: as) ++ c :: r = 32 :: (a.1 ++ 61 :: 34 :: (a.2 ++ 34 :: (attributes as ++ c :: r))) := by
      simp [attributes]
    have hl' : (attributes as).length < (attributes (a :: as)).length := by
      simp [attributes]
      omega
    cases n with
    | zero   => cases hl
    | succ n =>
      have hi : readAttributes n (attributes as ++ c :: r) = some (as, c :: r) := ih hn hc (by omega)
      rw [hs, readAttributes, readAttribute_append ha h34 h60, Option.bind_eq_bind, Option.bind_some]
      dsimp only
      rw [hi]
      rfl

theorem splitData_append (h : ¬ dataEnd <:+: t) (r : Text) : splitData (t ++ (dataEnd ++ r)) = some (t, r) := by
  induction t with
  | nil       => rfl
  | cons b t hi =>
    have hn : ¬ dataEnd <+: b :: (t ++ (dataEnd ++ r)) := by
      intro hp
      match t with
      | []          => simp [dataEnd] at hp
      | [c]         => simp [dataEnd] at hp
      | c :: d :: t =>
        have ⟨h₁, h₂, h₃⟩ : 93 = b ∧ 93 = c ∧ 62 = d := by simpa [dataEnd] using hp
        exact h ⟨[], t, by rw [← h₁, ← h₂, ← h₃]; rfl⟩
    rw [List.cons_append, splitData, if_neg (by rwa [List.isPrefixOf_iff_prefix]), hi fun hi => h (hi.trans (List.suffix_cons b t).isInfix)]
    rfl

theorem not_dataStart (h : 60 ∉ s) (r : Text) : ¬ dataStart <+: (s ++ 60 :: 47 :: r).dropWhile isBlank := by
  induction s with
  | nil       =>
    rw [List.nil_append, List.dropWhile_cons_of_neg (by decide)]
    simp [dataStart]
  | cons b s hi =>
    rw [List.cons_append]
    by_cases hb : isBlank b
    · rw [List.dropWhile_cons_of_pos hb]
      exact hi fun hm => h (List.mem_cons_of_mem b hm)
    · rw [List.dropWhile_cons_of_neg hb, dataStart, List.cons_prefix_cons]
      exact fun he => h (he.left ▸ List.mem_cons_self)

theorem readLeaf_append {l : Leaf} (hw : l.Writes s) (hp : l.Proper) (r : Text) :
    readLeaf (s ++ 60 :: 47 :: r) = some (l, 60 :: 47 :: r) := by
  cases hw with
  | chars           =>
    have hs : ∀ b ∈ s, decide (b ≠ 60) = true := fun b hb => decide_eq_true fun he => hp (he ▸ hb)
    have ⟨ht, hd⟩ := while_append (r := 47 :: r) hs (by decide : decide ((60 : UInt8) ≠ 60) = false)
    rw [readLeaf, if_neg (by rw [List.isPrefixOf_iff_prefix]; exact not_dataStart hp r), ht, hd]
  | data hb hb' =>
    rename_i b t b'
    have hd : (b ++ (dataStart ++ (t ++ (dataEnd ++ b'))) ++ 60 :: 47 :: r).dropWhile isBlank =
        dataStart ++ (t ++ (dataEnd ++ (b' ++ 60 :: 47 :: r))) := by
      rw [List.append_assoc, List.dropWhile_append_of_pos hb]
      simp [dataStart, isBlank]
    rw [readLeaf, hd, if_pos (by rw [List.isPrefixOf_iff_prefix]; exact List.prefix_append ..), List.drop_left,
      splitData_append hp, Option.map_some]
    dsimp only
    rw [(while_append hb' (by decide : isBlank 60 = false)).right]

theorem readTag_append {c : UInt8} (hn : Named name as) (hc : Clean as) (h : c ≠ 32 ∧ isNameByte c = false)
    (hl : (attributes as).length < n) (u : Text) :
    readTag n (name ++ (attributes as ++ c :: u)) = some (name, as, c :: u) := by
  have hw : ∃ d v, isNameByte d = false ∧ attributes as ++ c :: u = d :: v := by
    cases as with
    | nil       => exact ⟨c, u, h.right, rfl⟩
    | cons a as => exact ⟨32, _, by decide, rfl⟩
  have ⟨d, v, hd, he⟩ := hw
  have ⟨ht, hr⟩ := while_append (r := v) hn.left.right hd
  rw [readTag, he, ht, if_neg hn.left.left, hr, ← he, readAttributes_append hn.right hc h.left hl]
  rfl

theorem name_ne (hn : IsName name) (u : Text) : ∃ b v, name ++ u = b :: v ∧ b ≠ 47 := by
  cases name with
  | nil         => exact absurd rfl hn.left
  | cons b name =>
    refine ⟨b, name ++ u, rfl, ?_⟩
    rintro rfl
    exact absurd (hn.right 47 List.mem_cons_self) (by decide)

-- Where the reading of some nodes stops.
def Stops (r : Text) : Prop :=
  r = [] ∨ ∃ u, r = 60 :: 47 :: u

theorem readNodes_blank {b : UInt8} (hb : isBlank b) (t : Text) : readNodes leaf n (b :: t) = readNodes leaf n t := by
  cases n with
  | zero   => rfl
  | succ n => rw [readNodes, readNodes, List.dropWhile_cons_of_pos hb]

theorem readNodes_stops (hr : Stops r) : readNodes leaf (n + 1) r = some ([], r) := by
  rcases hr with rfl | ⟨u, rfl⟩
  · rfl
  · rw [readNodes, List.dropWhile_cons_of_neg (by decide)]
    rfl

-- The next node is one with a tag.
theorem readNodes_tag {c : UInt8} (hn : Named name as) (hc : Clean as) (h : c ≠ 32 ∧ isNameByte c = false)
    (hl : (attributes as).length < n) (u : Text) :
    readNodes leaf (n + 1) (60 :: (name ++ (attributes as ++ c :: u))) =
      match skip [47, 62] (c :: u) with
      | some u =>
        if leaf name then none
        else do
          let (ns, u) ← readNodes leaf n u
          return (.element name as [] :: ns, u)
      | none   =>
        if leaf name then do
          let (l, u) ← readLeaf (← skip [62] (c :: u))
          let (ns, u) ← readNodes leaf n (← skip (endTag name) u)
          return (.leaf name as l :: ns, u)
        else do
          let (cs, u) ← readNodes leaf n (← skip [62] (c :: u))
          let (ns, u) ← readNodes leaf n (← skip (endTag name) u)
          return (.element name as cs :: ns, u) := by
  have ⟨b, v, he, hb⟩ := name_ne hn.left (attributes as ++ c :: u)
  have hr := readTag_append hn hc h hl u
  rw [he] at hr
  rw [readNodes, List.dropWhile_cons_of_neg (by decide), he]
  split
  case h_1 he   => cases he
  case h_2 he   => exact absurd (List.cons.inj (List.cons.inj he).right).left hb
  case h_3 he   =>
    cases he
    rw [hr]
    rfl
  case h_4 hn   => exact (hn (b :: v) rfl).elim

theorem skip_slash (u : Text) : skip [47, 62] (62 :: u) = none :=
  rfl

theorem skip_close (u : Text) : skip [62] (62 :: u) = some u :=
  skip_append [62] u

theorem startTag_append (name : Text) (as : List (Text × Text)) (u : Text) :
    startTag name as ++ u = 60 :: (name ++ (attributes as ++ 62 :: u)) := by
  simp [startTag]

theorem emptyTag_append (name : Text) (as : List (Text × Text)) (u : Text) :
    emptyTag name as ++ u = 60 :: (name ++ (attributes as ++ 47 :: 62 :: u)) := by
  simp [emptyTag]

theorem endTag_append (name u : Text) : endTag name ++ u = 60 :: 47 :: (name ++ 62 :: u) := by
  simp [endTag]

theorem Writes.readNodes (h : Writes leaf ns t) (hp : Proper ns) (hr : Stops r) (hn : t.length < n) :
    readNodes leaf n (t ++ r) = some (ns, r) := by
  induction h generalizing n r with
  | nil                        =>
    cases n with
    | zero   => cases hn
    | succ n => exact readNodes_stops hr
  | blank hb h ih              =>
    rw [List.cons_append, readNodes_blank hb]
    exact ih hp hr (Nat.lt_of_succ_lt hn)
  | leaf hl hd hw h ih         =>
    rename_i name as l s ns t
    have ⟨⟨hc, hl'⟩, hp⟩ := hp
    cases n with
    | zero   => cases hn
    | succ n =>
      have ⟨ha, ht⟩ : (attributes as).length < n ∧ t.length < n := by
        simp only [startTag, endTag, List.length_append, List.length_cons, List.length_nil] at hn
        omega
      rw [List.append_assoc, List.append_assoc, List.append_assoc, startTag_append,
        readNodes_tag hd hc (by decide) ha]
      have hs := readLeaf_append hw hl' (name ++ 62 :: (t ++ r))
      rw [← endTag_append] at hs
      rw [skip_slash, if_pos hl, skip_close]
      simp only [Option.bind_eq_bind, Option.bind_some, hs, skip_append, ih hp hr ht]
      rfl
  | empty hl hd h ih           =>
    rename_i name as ns t
    have ⟨⟨hc, _⟩, hp⟩ := hp
    cases n with
    | zero   => cases hn
    | succ n =>
      have ⟨ha, ht⟩ : (attributes as).length < n ∧ t.length < n := by
        simp only [emptyTag, List.length_append, List.length_cons, List.length_nil] at hn
        omega
      rw [List.append_assoc, emptyTag_append, readNodes_tag hd hc (by decide) ha]
      have hs : skip [47, 62] (47 :: 62 :: (t ++ r)) = some (t ++ r) := skip_append [47, 62] _
      rw [hs]
      dsimp only
      rw [if_neg (ne_true_of_eq_false hl), ih hp hr ht]
      rfl
  | element hl hd hcs h ihc ih =>
    rename_i name as cs s ns t
    have ⟨⟨hc, hcs'⟩, hp⟩ := hp
    cases n with
    | zero   => cases hn
    | succ n =>
      have ⟨ha, hs, ht⟩ : (attributes as).length < n ∧ s.length < n ∧ t.length < n := by
        simp only [startTag, endTag, List.length_append, List.length_cons, List.length_nil] at hn
        omega
      rw [List.append_assoc, List.append_assoc, List.append_assoc, startTag_append,
        readNodes_tag hd hc (by decide) ha]
      have hs := ihc hcs' (.inr ⟨_, endTag_append name (t ++ r)⟩) hs
      rw [skip_slash, if_neg (ne_true_of_eq_false hl), skip_close]
      simp only [Option.bind_eq_bind, Option.bind_some, hs, skip_append, ih hp hr ht]
      rfl

theorem Writes.read (h : Writes leaf ns t) (hp : Proper ns) : Markup.read leaf t = some ns := by
  have hr := h.readNodes hp (.inl rfl) (Nat.lt_succ_self _)
  rw [List.append_nil] at hr
  rw [Markup.read, hr]

-- What is read has none of the characters that it would not be read with.

theorem not_mem_takeWhile (c : UInt8) (t : Text) : c ∉ t.takeWhile (· ≠ c) := by
  intro hm
  have hc := List.mem_takeWhile_imp (p := (· ≠ c)) hm
  exact of_decide_eq_true hc rfl

theorem readAttribute_clean {a : Text × Text} {u : Text} (h : readAttribute t = some (a, u)) : 34 ∉ a.2 ∧ 60 ∉ a.2 := by
  rw [readAttribute] at h
  have ⟨v, _, h⟩ := Option.bind_eq_some_iff.mp h
  have ⟨w, _, h⟩ := Option.bind_eq_some_iff.mp h
  split at h
  case isTrue     => cases h
  case isFalse hn =>
    cases h
    exact ⟨not_mem_takeWhile 34 v, hn⟩

theorem readAttributes_clean {u : Text} (h : readAttributes n t = some (as, u)) : Clean as := by
  induction n generalizing t as u with
  | zero      => cases h
  | succ n hi =>
    unfold readAttributes at h
    split at h
    case h_1      => cases h
    case h_2 he   =>
      cases he
      have ⟨⟨a, v⟩, ha, h⟩ := Option.bind_eq_some_iff.mp h
      have ⟨⟨as', w⟩, has, h⟩ := Option.bind_eq_some_iff.mp h
      cases h
      exact List.forall_mem_cons.mpr ⟨readAttribute_clean ha, hi has⟩
    case h_3      =>
      cases h
      exact fun a ha => absurd ha List.not_mem_nil

theorem splitData_prefix (h : splitData t = some (s, r)) : s <+: t := by
  induction t generalizing s with
  | nil       => cases h
  | cons b t hi =>
    rw [splitData] at h
    split at h
    · cases h
      exact List.nil_prefix
    · have ⟨⟨s', r'⟩, h', he⟩ := Option.map_eq_some_iff.mp h
      cases he
      exact List.cons_prefix_cons.mpr ⟨rfl, hi h'⟩

theorem splitData_clean (h : splitData t = some (s, r)) : ¬ dataEnd <:+: s := by
  induction t generalizing s with
  | nil       => cases h
  | cons b t hi =>
    rw [splitData] at h
    split at h
    case isTrue     =>
      cases h
      simp [dataEnd]
    case isFalse hn =>
      have ⟨⟨s', r'⟩, h', he⟩ := Option.map_eq_some_iff.mp h
      cases he
      rw [List.infix_cons_iff]
      rintro (hp | hp)
      · exact hn (List.isPrefixOf_iff_prefix.mpr (hp.trans (List.cons_prefix_cons.mpr ⟨rfl, splitData_prefix h'⟩)))
      · exact hi h' hp

theorem readLeaf_proper {l : Leaf} (h : readLeaf t = some (l, r)) : l.Proper := by
  rw [readLeaf] at h
  split at h
  · have ⟨⟨s, r'⟩, h', he⟩ := Option.map_eq_some_iff.mp h
    cases he
    exact splitData_clean h'
  · cases h
    exact not_mem_takeWhile 60 t

theorem readTag_clean {u : Text} (h : readTag n t = some (name, as, u)) : Clean as := by
  rw [readTag] at h
  split at h
  · cases h
  · have ⟨⟨as', u'⟩, h', he⟩ := Option.map_eq_some_iff.mp h
    cases he
    exact readAttributes_clean h'

theorem readNodes_proper (h : readNodes leaf n t = some (ns, r)) : Proper ns := by
  induction n generalizing t ns r with
  | zero      => cases h
  | succ n hi =>
    rw [readNodes] at h
    split at h
    case h_1   =>
      cases h
      trivial
    case h_2   =>
      cases h
      trivial
    case h_3 u _ _ =>
      have ⟨⟨name, as, u'⟩, ht, h⟩ := Option.bind_eq_some_iff.mp h
      have hc := readTag_clean ht
      dsimp only at h
      split at h
      · split at h
        · cases h
        · have ⟨⟨ns', r'⟩, hr, he⟩ := Option.bind_eq_some_iff.mp h
          cases he
          exact ⟨⟨hc, trivial⟩, hi hr⟩
      · split at h
        · have ⟨v, _, h⟩ := Option.bind_eq_some_iff.mp h
          have ⟨⟨l, w⟩, hl, h⟩ := Option.bind_eq_some_iff.mp h
          have ⟨x, _, h⟩ := Option.bind_eq_some_iff.mp h
          have ⟨⟨ns', r'⟩, hr, he⟩ := Option.bind_eq_some_iff.mp h
          cases he
          exact ⟨⟨hc, readLeaf_proper hl⟩, hi hr⟩
        · have ⟨v, _, h⟩ := Option.bind_eq_some_iff.mp h
          have ⟨⟨cs, w⟩, hcs, h⟩ := Option.bind_eq_some_iff.mp h
          have ⟨x, _, h⟩ := Option.bind_eq_some_iff.mp h
          have ⟨⟨ns', r'⟩, hr, he⟩ := Option.bind_eq_some_iff.mp h
          cases he
          exact ⟨⟨hc, hi hcs⟩, hi hr⟩
    case h_4   => cases h

-- What was written is read exactly when no character of it stands for markup.
theorem Writes.read_iff (h : Writes leaf ns t) : Markup.read leaf t = some ns ↔ Proper ns := by
  refine ⟨fun hr => ?_, h.read⟩
  rw [Markup.read] at hr
  split at hr
  case h_1 hn =>
    cases hr
    exact readNodes_proper hn
  case h_2    => cases hr

end Markup
