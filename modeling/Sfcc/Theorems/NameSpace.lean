import Sfcc.Theorems.Components
import Sfcc.Theorems.Xml.Keys

namespace Sfcc.NameSpace

variable {m value : Block} {t u ns name : Text} {names : List Text} {c : UInt8}

-- Memory that holds a string, with the NUL behind it.

theorem write_holds {i : ℤ} (h : Cells.Holds m t) (hl : (t ++ u).length ≤ m.length) (hi : i = t.length) :
    ∃ m', write m i u = .ok m' ∧ m'.length = m.length ∧ Cells.Holds m' (t ++ u) := by
  have ⟨m', he, hlen, hh⟩ := h.store hl
  refine ⟨m', ?_, hlen, hh⟩
  rw [write, hi, if_pos (Int.natCast_nonneg _), Int.toNat_natCast, he]
  rfl

theorem string_holds (h : Cells.Holds m (t ++ [0])) (h0 : 0 ∉ t) : string m 0 = .ok t := by
  rw [string, List.drop_zero, h.upTo h0]
  rfl

-- The loop over the slashes.

theorem cut_eq {a : Text} {r : Block} {n : ℕ} (hn : t.length < n) (h0 : 0 ∉ t) :
    cut n (a.map some ++ (t ++ [0]).map some ++ r) a.length = .ok (t.splitOn 47) := by
  induction n generalizing a t r with
  | zero      => omega
  | succ n hi =>
    have hdrop : (a.map some ++ (t ++ [0]).map some ++ r).drop a.length = (t ++ [0]).map some ++ r := by
      rw [List.append_assoc, List.drop_left' (List.length_map _)]
    have hs : string (a.map some ++ (t ++ [0]).map some ++ r) a.length = .ok t := by
      rw [string, hdrop, (Cells.holds_append (t ++ [0]) r).upTo h0]
      rfl
    have hcut : cut (n + 1) (a.map some ++ (t ++ [0]).map some ++ r) a.length =
        (t.findIdx? (· = 47)).elim (do return [← string (a.map some ++ (t ++ [0]).map some ++ r) a.length]) fun k => do
          let m ← write (a.map some ++ (t ++ [0]).map some ++ r) (a.length + k) [0]
          return (← string m a.length) :: (← cut n m (a.length + k + 1)) := by
      rw [cut, hs]
      simp only [bind, Except.bind]
      cases t.findIdx? (· = 47) <;> rfl
    rw [hcut]
    by_cases h47 : 47 ∈ t
    · obtain ⟨b, u, rfl, hb⟩ := List.eq_append_cons_of_mem h47
      have hf : (b ++ 47 :: u).findIdx? (· = 47) = some b.length := by
        have hb' : ∀ c ∈ b, decide (c = 47) = false := fun c hc => decide_eq_false fun he => hb (he ▸ hc)
        have hu : (47 :: u).findIdx? (· = 47) = some 0 := by
          rw [List.findIdx?_cons]
          rfl
        rw [List.findIdx?_append, List.findIdx?_eq_none_iff.mpr hb', hu]
        exact congrArg some (Nat.zero_add _)
      have hbu : 0 ∉ b ∧ 0 ∉ u :=
        ⟨fun hm => h0 (List.mem_append_left _ hm), fun hm => h0 (List.mem_append_right _ (List.mem_cons_of_mem _ hm))⟩
      -- The slash is the only byte that changes.
      have hm : a.map some ++ (b ++ 47 :: u ++ [0]).map some ++ r =
          (a ++ b ++ 47 :: (u ++ [0])).map some ++ r := by simp
      obtain ⟨m, hset, _, hh⟩ := Cells.Holds.set (hm ▸ Cells.holds_append _ r) 0
      have he : m = (a ++ b ++ [0]).map some ++ (u ++ [0]).map some ++ m.drop (a ++ b ++ 0 :: (u ++ [0])).length := by
        refine hh.eq_append.trans (congrArg (· ++ _) ?_)
        simp
      have hw : write (a.map some ++ (b ++ 47 :: u ++ [0]).map some ++ r) (a.length + b.length) [0] = .ok m := by
        have hi : ((a.length : ℤ) + b.length).toNat = (a ++ b).length := by
          rw [List.length_append]
          omega
        rw [write, if_pos (by omega), hi, hset]
        rfl
      have hs' : string m a.length = .ok b := by
        have hd : m.drop a.length = (b ++ [0]).map some ++ ((u ++ [0]).map some ++
            m.drop (a ++ b ++ 0 :: (u ++ [0])).length) := by
          conv_lhs => rw [he]
          rw [List.append_assoc a b, List.map_append, List.append_assoc, List.append_assoc,
            List.drop_left' (List.length_map _)]
        rw [string, hd, (Cells.holds_append (b ++ [0]) _).upTo hbu.left]
        rfl
      have hrec := @hi u (a ++ b ++ [0]) (m.drop (a ++ b ++ 0 :: (u ++ [0])).length) (by
        rw [List.length_append, List.length_cons] at hn
        omega) hbu.right
      rw [← he, List.length_append, List.length_append, List.length_singleton] at hrec
      rw [hf]
      show (write _ (a.length + b.length) [0] >>= _) = _
      rw [hw]
      show (string m a.length >>= fun t => cut n m (a.length + b.length + 1) >>= fun l => pure (t :: l)) = _
      rw [hs', hrec, List.splitOn_append_cons_self_of_not_mem hb]
      rfl
    · have hf : t.findIdx? (· = 47) = none := by
        rw [List.findIdx?_eq_none_iff]
        intro c hc
        exact decide_eq_false fun he => h47 (he ▸ hc)
      rw [hf, List.splitOn_eq_singleton h47, hs]
      rfl

theorem pathToXml_eq (h0 : 0 ∉ ns) : pathToXml ns = .ok (ns.splitOn 47) := by
  have h := @cut_eq ns [] [] _ (Nat.lt_succ_self _) h0
  rwa [List.map_nil, List.nil_append, List.append_nil] at h

-- The blocks of the joined names.

theorem strcat_holds (h : Cells.Holds value (t ++ [0])) (h0 : 0 ∉ t) (hl : t.length + u.length < value.length) :
    ∃ m, strcat value u = .ok m ∧ m.length = value.length ∧ Cells.Holds m (t ++ u ++ [0]) := by
  have hroom : (t ++ (u ++ [0])).length ≤ value.length := by
    rw [List.length_append, List.length_append, List.length_singleton]
    omega
  have ⟨m, he, hlen, hm⟩ := write_holds h.left hroom rfl
  refine ⟨m, ?_, hlen, ?_⟩
  · rw [strcat, string_holds h h0]
    exact he
  · rwa [List.append_assoc]

theorem addNameSpace_holds (h : Cells.Holds value (t ++ [0])) (h0 : 0 ∉ t) :
    ∃ m, addNameSpace (some value) u = .ok m ∧ Cells.Holds m (t ++ bytes "/" ++ u ++ [0]) := by
  have hl : (bytes "/").length = 1 := rfl
  have hfit : (t ++ [0]).length ≤ t.length + u.length + 2 := by
    rw [List.length_append, List.length_singleton]
    omega
  have hz : 0 ∉ t ++ bytes "/" := by
    rw [List.mem_append, not_or]
    exact ⟨h0, by decide⟩
  have hsize := Cells.resize_length value (t.length + u.length + 2)
  have ⟨m₁, h₁, hlen, hh₁⟩ := strcat_holds (u := bytes "/") (h.resize hfit) h0 (by rw [hl, hsize]; omega)
  have ⟨m₂, h₂, _, hh₂⟩ := strcat_holds (u := u) hh₁ hz (by rw [List.length_append, hlen, hl, hsize]; omega)
  refine ⟨m₂, ?_, hh₂⟩
  rw [addNameSpace, string_holds h h0]
  show (strcat (Cells.resize value (t.length + u.length + 2)) (bytes "/") >>= fun m => strcat m u) = _
  rw [h₁]
  exact h₂

theorem addNameSpace_first (t : Text) : ∃ m, addNameSpace none t = .ok m ∧ Cells.Holds m (t ++ [0]) := by
  have hroom : ([] ++ (t ++ [0])).length ≤ (Cells.resize ([] : Block) (t.length + 1)).length := by
    rw [List.nil_append, List.length_append, List.length_singleton, Cells.resize_length]
  have ⟨m, he, _, hm⟩ := write_holds (.nil _) hroom rfl
  exact ⟨m, he, hm⟩

theorem foldlM_holds (h : Cells.Holds value (t ++ [0])) (h0 : 0 ∉ t) (hn : ∀ name ∈ names, 0 ∉ name) :
    ∃ m, names.foldlM (fun value ns => return some (← addNameSpace value ns)) (some value) = .ok (some m) ∧
      Cells.Holds m (names.foldl (fun path name => path ++ bytes "/" ++ name) t ++ [0]) := by
  induction names generalizing value t with
  | nil                => exact ⟨value, rfl, h⟩
  | cons name names hi =>
    have ⟨hname, hn⟩ := List.forall_mem_cons.mp hn
    have ⟨m, he, hm⟩ := @addNameSpace_holds value t name h h0
    have hz : 0 ∉ t ++ bytes "/" ++ name := by
      rw [List.mem_append, List.mem_append, not_or, not_or]
      exact ⟨⟨h0, by decide⟩, hname⟩
    have ⟨m', he', hm'⟩ := hi hm hz hn
    refine ⟨m', ?_, hm'⟩
    rw [List.foldlM_cons, he]
    exact he'

-- The blocks hold what the parser makes of the names.
theorem localNameSpacePath_holds (hn : ∀ name ∈ names, 0 ∉ name) (h : Xml.Tree.joined names = some t) :
    ∃ m, localNameSpacePath names = .ok (some m) ∧ Cells.Holds m (t ++ [0]) := by
  cases names with
  | nil             => cases h
  | cons name names =>
    have ⟨hname, hn⟩ := List.forall_mem_cons.mp hn
    have ⟨m, he, hm⟩ := addNameSpace_first name
    have ⟨m', he', hm'⟩ := foldlM_holds hm hname hn
    refine ⟨m', ?_, Option.some.inj h ▸ hm'⟩
    rw [localNameSpacePath, List.foldlM_cons, he]
    exact he'

-- What is written for the names.
def element (names : List Text) : Text :=
  bytes "<LOCALNAMESPACEPATH>\n" ++ names.flatMap Xml.namespaceElement ++ bytes "</LOCALNAMESPACEPATH>"

-- Both of the splitters find the names, and what the parser makes of their elements is the namespace, in
-- the value and in the block of it.
structure Consistent (ns : Text) (names : List Text) (m : Block) : Prop where
  components : getNameSpaceComponents (some ns) = .ok names
  inPlace    : pathToXml ns = .ok names
  lexed      : Xml.Lexes (element names) (Xml.Tree.NameSpacePath.yieldLocal names)
  parsed     : ∀ su ts c, ∃ c', Xml.Grammar.localNameSpacePath su ⟨Xml.Tree.NameSpacePath.yieldLocal names ++ ts, c, false⟩ =
    .ok ({ value := some ns }, ⟨ts, c', false⟩)
  joined     : localNameSpacePath names = .ok (some m)
  string     : Cells.upTo 0 m = some ns

theorem consistent_of (hs : ∀ name ∈ ns.splitOn 47, name ≠ [] ∧ name.length ≤ 255) (h0 : 0 ∉ ns) (h34 : 34 ∉ ns)
    (hl : ns.length < 2 ^ 31) : ∃ m, Consistent ns (ns.splitOn 47) m := by
  have hnames (c : UInt8) (hc : c ∉ ns) : ∀ name ∈ ns.splitOn 47, c ∉ name := fun name hn hm => hc (Xml.mem_splitOn hn hm)
  have ⟨m, hj, hm⟩ := localNameSpacePath_holds (hnames 0 h0) (Xml.joined_splitOn ns)
  refine ⟨m, ?_, pathToXml_eq h0, Xml.nameSpaces_lexes (hnames 34 h34), fun su ts c => ?_, hj, hm.upTo h0⟩
  · have hnames := names_of_lt hl
    rw [getNameSpaceComponents_eq, hnames, kept_of_ne_nil fun name hn => (hs name hn).left]
    rw [hnames]
    exact fun name hn => (hs name hn).right
  · have hat : Descent.At .any (Xml.Tree.NameSpacePath.yieldLocal (ns.splitOn 47) ++ ts) su
        (su, ⟨Xml.Tree.NameSpacePath.yieldLocal (ns.splitOn 47) ++ ts, c, false⟩) := .any_of_fresh
    obtain ⟨r, hr, ha⟩ := Xml.Grammar.localNameSpacePath_reads.complete hat le_rfl rfl
    cases ha
    dsimp only at hr
    rw [Xml.joined_splitOn] at hr
    exact ⟨_, hr⟩

-- A longer string is not looked at to its end.
theorem consistent_length (h0 : 0 ∉ ns) (h : Consistent ns names m) : ns.length < 2 ^ 31 := by
  by_contra hl
  have hc := h.components
  have hp := h.inPlace
  rw [pathToXml_eq h0] at hp
  cases hp
  have hw := weight_names (Nat.le_of_not_lt hl)
  rw [← getNameSpaceComponents_ok hc, weight_splitOn] at hw
  omega

theorem consistent_iff (hs : ∀ name ∈ ns.splitOn 47, name ≠ [] ∧ name.length ≤ 255) (h0 : 0 ∉ ns) (h34 : 34 ∉ ns) :
    (∃ names m, Consistent ns names m) ↔ ns.length < 2 ^ 31 := by
  constructor
  · rintro ⟨names, m, h⟩
    exact consistent_length h0 h
  · intro hl
    exact ⟨_, consistent_of hs h0 h34 hl⟩

theorem consistent_iff_cimv2 : (∃ names m, Consistent (bytes "root/cimv2") names m) ↔ (bytes "root/cimv2").length < 2 ^ 31 :=
  consistent_iff (by decide +kernel) (by decide +kernel) (by decide +kernel)

theorem not_consistent : ¬ ∀ ns : Text, (∀ name ∈ ns.splitOn 47, name ≠ [] ∧ name.length ≤ 255) → 0 ∉ ns → 34 ∉ ns →
    ∃ names m, Consistent ns names m := by
  intro hall
  obtain ⟨ns, hs, hc, hl⟩ := exists_long
  have h0 : 0 ∉ ns := fun hm => absurd (hc 0 hm) (by decide)
  have h34 : 34 ∉ ns := fun hm => absurd (hc 34 hm) (by decide)
  obtain ⟨names, m, h⟩ := hall ns hs h0 h34
  have hlt := consistent_length h0 h
  omega

end Sfcc.NameSpace
