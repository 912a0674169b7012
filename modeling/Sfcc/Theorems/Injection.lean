import Sfcc.Theorems.Requests
import Sfcc.Theorems.Xml.Results
import Sfcc.Theorems.Xml.Scalar

open Markup (Node Proper shapes)

-- The strings of instances and arguments.
namespace Sfcc.Requests

open Xml Asked

variable {printg : Text → Text} {ns ms : List Node} {s t : Text} {p q : NativeProperty CMPIValue}

-- Nodes that have the same tags, and the same chance to be read.
def Same (ns ms : List Node) : Prop :=
  shapes ns = shapes ms ∧ (Proper ns ↔ Proper ms)

theorem Same.refl (ns : List Node) : Same ns ns :=
  ⟨rfl, Iff.rfl⟩

theorem Same.append {ns' ms' : List Node} (h : Same ns ms) (h' : Same ns' ms') : Same (ns ++ ns') (ms ++ ms') := by
  refine ⟨?_, ?_⟩
  · rw [Markup.shapes_eq_map, Markup.shapes_eq_map, List.map_append, List.map_append, ← Markup.shapes_eq_map,
      ← Markup.shapes_eq_map, ← Markup.shapes_eq_map, ← Markup.shapes_eq_map, h.left, h'.left]
  · rw [Markup.proper_append, Markup.proper_append, h.right, h'.right]

theorem Same.element (name : Text) (as : List (Text × Text)) (h : Same ns ms) :
    Same [.element name as ns] [.element name as ms] := by
  refine ⟨?_, ?_⟩
  · simp only [shapes, Node.shape, h.left]
  · simp only [Proper, Node.Proper, h.right]

-- A string is escaped, so it has nothing that ends its element.
theorem valueText_open {type : CMPIType} {v : CMPIValue} (ht : type = .string ∨ type = .chars)
    (h : valueText printg type v = .ok t) : 60 ∉ t := by
  have ⟨cv, _, h⟩ := ok_bind.mp h
  rw [if_pos ht] at h
  cases h
  exact AsciiToXmlStr_not_mem rfl (by decide)

theorem value_same (hs : 60 ∉ s) (ht : 60 ∉ t) : Same [value s] [value t] := by
  refine ⟨rfl, ?_⟩
  simp only [Proper, value, Node.Proper, Markup.Leaf.Proper, hs, ht, not_false_eq_true]

theorem values_same {ss ts : List Text} (hl : ss.length = ts.length) (hs : ∀ s ∈ ss, 60 ∉ s) (ht : ∀ t ∈ ts, 60 ∉ t) :
    Same (ss.map value) (ts.map value) := by
  induction ss generalizing ts with
  | nil          =>
    cases ts with
    | nil       => exact .refl []
    | cons t ts => cases hl
  | cons s ss hi =>
    cases ts with
    | nil       => cases hl
    | cons t ts =>
      have ⟨hs, hss⟩ := List.forall_mem_cons.mp hs
      have ⟨ht, hts⟩ := List.forall_mem_cons.mp ht
      exact (value_same hs ht).append (hi (Nat.succ.inj hl) hss hts)

theorem mapM_length {α : Type} {f : α → Except Fault Text} {l : List α} {ts : List Text} (h : l.mapM f = .ok ts) :
    l.length = ts.length :=
  (mapM_ok.mp h).length_eq

theorem valueNodes_same {tag : String} {typed : Option String} (h : Alike p q)
    (hp : valueNodes printg tag typed p.name p.data = .ok ns) (hq : valueNodes printg tag typed q.name q.data = .ok ms) :
    Same ns ms := by
  have ht : p.data.type.element = .string ∨ p.data.type.element = .chars := h.text
  have hn : q.name = p.name := h.name.symm
  have hty : q.data.type = p.data.type := h.type.symm
  have hst : q.data.state = p.data.state := h.state.symm
  rw [valueNodes] at hp hq
  rw [hn, hty, hst] at hq
  split at hp
  case isTrue hs  =>
    rw [if_pos hs] at hq
    cases hp
    cases hq
    exact .refl []
  case isFalse hs =>
    rw [if_neg hs] at hq
    split at hp
    case isTrue ha  =>
      rw [if_pos ha] at hq
      split at hp
      case h_1 a hv =>
        split at hq
        case h_1 b hw =>
          have hl : a.data.length = b.data.length := h.array a b hv hw
          split at hp
          case isTrue he  =>
            have he' : b.data = [] := List.length_eq_zero_iff.mp (by rw [← hl, he]; rfl)
            rw [if_pos he'] at hq
            cases hp
            cases hq
            exact .refl []
          case isFalse he =>
            have he' : b.data ≠ [] := fun he' => he (List.length_eq_zero_iff.mp (by rw [hl, he']; rfl))
            rw [if_neg he'] at hq
            obtain ⟨cvs, hcvs, hp⟩ := ok_bind.mp hp
            obtain ⟨cvs', hcvs', hq⟩ := ok_bind.mp hq
            cases hp
            cases hq
            have hl' : cvs.length = cvs'.length := by rw [← mapM_length hcvs, ← mapM_length hcvs', hl]
            exact ((values_same hl' (mapM_forall hcvs (valueText_open ht)) (mapM_forall hcvs' (valueText_open ht))).element
              _ _).element _ _
        case h_2      => cases hq
        case h_3      => cases hq
      case h_2      => cases hp
      case h_3      => cases hp
    case isFalse ha =>
      have hr : p.data.type ≠ .ref := by
        rintro hr
        rw [hr] at ht
        exact absurd ht (by decide)
      rw [if_neg ha] at hq
      rw [if_neg hr] at hp hq
      obtain ⟨cv, hcv, hp⟩ := ok_bind.mp hp
      obtain ⟨cv', hcv', hq⟩ := ok_bind.mp hq
      cases hp
      cases hq
      exact (value_same (valueText_open ht hcv) (valueText_open ht hcv')).element _ _

theorem property_same (h : p = q ∨ Alike p q) (hp : property printg p = .ok ns) (hq : property printg q = .ok ms) :
    Same ns ms := by
  cases h with
  | inl h =>
    subst h
    cases hp.symm.trans hq
    exact .refl ns
  | inr h =>
    have hr : p.type ≠ .ref := by
      intro hr
      have ht := h.text
      rw [hr] at ht
      exact absurd ht (by decide)
    rw [property, if_neg hr] at hp
    rw [property, if_neg (h.type ▸ hr)] at hq
    exact valueNodes_same h hp hq

theorem argument_same (h : p = q ∨ Alike p q) (hp : argument printg p = .ok ns) (hq : argument printg q = .ok ms) :
    Same ns ms := by
  cases h with
  | inl h =>
    subst h
    cases hp.symm.trans hq
    exact .refl ns
  | inr h =>
    have hi : p.type.element ≠ .inst ∧ p.type.element ≠ .ref := by
      rcases h.text with ht | ht <;> rw [ht] <;> decide
    rw [argument, if_neg hi.left, if_neg hi.right] at hp
    rw [argument, if_neg (h.type ▸ hi.left), if_neg (h.type ▸ hi.right)] at hq
    exact valueNodes_same h hp hq

theorem flatten_same {f : NativeProperty CMPIValue → Except Fault (List Node)} {l l' : List (NativeProperty CMPIValue)}
    {nss mss : List (List Node)} (hf : ∀ p q ns ms, p = q ∨ Alike p q → f p = .ok ns → f q = .ok ms → Same ns ms)
    (h : AllAlike l l') (hn : l.mapM f = .ok nss) (hm : l'.mapM f = .ok mss) : Same nss.flatten mss.flatten := by
  induction h generalizing nss mss with
  | nil             =>
    cases hn
    cases hm
    exact .refl []
  | cons hpq _ hi   =>
    rw [List.mapM_cons] at hn hm
    have ⟨ns, hns, hn⟩ := ok_bind.mp hn
    have ⟨nss', hnss, hn⟩ := ok_bind.mp hn
    have ⟨ms, hms, hm⟩ := ok_bind.mp hm
    have ⟨mss', hmss, hm⟩ := ok_bind.mp hm
    cases hn
    cases hm
    rw [List.flatten_cons, List.flatten_cons]
    exact (hf _ _ _ _ hpq hns hms).append (hi hnss hmss)

theorem instanceNode_same {cop : CMPIObjectPath} {i j : CMPIInstance} {n m : Node} (h : AllAlike i.props j.props)
    (hn : instanceNode printg cop i = .ok n) (hm : instanceNode printg cop j = .ok m) : Same [n] [m] := by
  have ⟨nss, hnss, hn⟩ := ok_bind.mp hn
  have ⟨mss, hmss, hm⟩ := ok_bind.mp hm
  cases hn
  cases hm
  exact (flatten_same (fun _ _ _ _ => property_same) h hnss hmss).element _ _

theorem message_same {call call' : Node} (h : Same [call] [call']) : Same (message call) (message call') :=
  ((h.element _ _).element _ _).element _ _

namespace Operation

variable {cop : CMPIObjectPath} {op op' : Operation}

theorem asks_same (h : op.Alike op') (hn : op.asks printg cop = .ok ns) (hm : op'.asks printg cop = .ok ms) :
    Same ns ms := by
  cases h with
  | createInstance h =>
    have ⟨l, hl, hn⟩ := ok_bind.mp hn
    have ⟨n, hin, hn⟩ := ok_bind.mp hn
    have ⟨l', hl', hm⟩ := ok_bind.mp hm
    have ⟨m, him, hm⟩ := ok_bind.mp hm
    cases hn
    cases hm
    cases hl.symm.trans hl'
    exact message_same (((Same.refl l).append ((instanceNode_same h hin him).element _ _)).element _ _)
  | setInstance h =>
    have ⟨l, hl, hn⟩ := ok_bind.mp hn
    have ⟨n, hin, hn⟩ := ok_bind.mp hn
    have ⟨n', hin', hn⟩ := ok_bind.mp hn
    have ⟨l', hl', hm⟩ := ok_bind.mp hm
    have ⟨m, him, hm⟩ := ok_bind.mp hm
    have ⟨m', him', hm⟩ := ok_bind.mp hm
    cases hn
    cases hm
    cases hl.symm.trans hl'
    cases hin.symm.trans him
    have hi := (((Same.refl [n]).append (instanceNode_same h hin' him')).element (bytes "VALUE.NAMEDINSTANCE") []).element
      (bytes "IPARAMVALUE") [attr "NAME" (bytes "ModifiedInstance")]
    exact message_same (((Same.refl _).append hi).element _ _)
  | invokeMethod h =>
    have ⟨l, hl, hn⟩ := ok_bind.mp hn
    have ⟨n, hin, hn⟩ := ok_bind.mp hn
    have ⟨nss, hnss, hn⟩ := ok_bind.mp hn
    have ⟨l', hl', hm⟩ := ok_bind.mp hm
    have ⟨m, him, hm⟩ := ok_bind.mp hm
    have ⟨mss, hmss, hm⟩ := ok_bind.mp hm
    cases hn
    cases hm
    cases hl.symm.trans hl'
    cases hin.symm.trans him
    have ha := (Same.refl [element "LOCALINSTANCEPATH" [] (l ++ [n])]).append
      (flatten_same (fun _ _ _ _ => argument_same) h hnss hmss)
    exact message_same (ha.element _ _)

-- The strings of an instance, or of the arguments, never change the markup of a request.
theorem strings_keep_markup (h : op.Alike op') (hs : op.body printg cop = .ok (some s))
    (ht : op'.body printg cop = .ok (some t)) :
    ∃ n m u w, op.asks printg cop = .ok [n] ∧ op'.asks printg cop = .ok [m] ∧ s = declaration ++ u ∧ t = declaration ++ w ∧
      Markup.Writes isLeaf [n] u ∧ Markup.Writes isLeaf [m] w ∧ shapes [n] = shapes [m] ∧
      (Markup.read isLeaf u = some [n] ↔ Markup.read isLeaf w = some [m]) := by
  obtain ⟨n, u, hn, hs, hu⟩ := body_writes hs
  obtain ⟨m, w, hm, ht, hw⟩ := body_writes ht
  obtain ⟨hsh, hp⟩ := asks_same h hn hm
  exact ⟨n, m, u, w, hn, hm, hs, ht, hu, hw, hsh, by rw [hu.read_iff, hw.read_iff, hp]⟩

def note (t : Text) : CMPIInstance where
  classname := some (bytes "Note")
  props     := [{ name := bytes "text", type := .string, state := .good, value := .string t }]

theorem strings_keep_markup_note : ∃ s t n m u w, (createInstance (note (bytes "a"))).body id {} = .ok (some s) ∧
    (createInstance (note (bytes "</VALUE>"))).body id {} = .ok (some t) ∧
    (createInstance (note (bytes "a"))).asks id {} = .ok [n] ∧
    (createInstance (note (bytes "</VALUE>"))).asks id {} = .ok [m] ∧ s = declaration ++ u ∧ t = declaration ++ w ∧
    Markup.Writes isLeaf [n] u ∧ Markup.Writes isLeaf [m] w ∧ shapes [n] = shapes [m] ∧
    (Markup.read isLeaf u = some [n] ↔ Markup.read isLeaf w = some [m]) := by
  have hs : (createInstance (note (bytes "a"))).body id {} = .ok (some _) := rfl
  have ht : (createInstance (note (bytes "</VALUE>"))).body id {} = .ok (some _) := rfl
  have ha : AllAlike (note (bytes "a")).props (note (bytes "</VALUE>")).props :=
    .cons (.inr ⟨rfl, rfl, rfl, .inl rfl, nofun⟩) .nil
  obtain ⟨n, m, u, w, h⟩ := strings_keep_markup (.createInstance ha) hs ht
  exact ⟨_, _, n, m, u, w, hs, ht, h⟩

end Operation
end Sfcc.Requests
