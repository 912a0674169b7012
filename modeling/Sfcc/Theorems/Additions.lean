import Mathlib.Data.List.Induction
import Sfcc.Client
import Sfcc.Theorems.Cmpi.Writes
import Sfcc.Theorems.Xml.Params

-- What a path and a list of arguments hold after keys and arguments were added.
namespace Sfcc

open Xml Xml.Tree

-- A call of `addKey` or `addArg` with a value that is not null.
structure Addition where
  name    : Text
  value   : CMPIValue
  type    : CMPIType
  nonnull : type ≠ .null

namespace Addition

def addKeys (cop : CMPIObjectPath) (cs : List Addition) : Except Fault CMPIObjectPath :=
  cs.foldlM (fun cop c => cop.addKey (some c.name) (some c.value) c.type) cop

def addArgs (args : CMPIArgs) (cs : List Addition) : Except Fault CMPIArgs :=
  cs.foldlM (fun args c => addArg args (some c.name) c.value c.type) args

def assignment (c : Addition) : Assignment where
  name  := c.name
  value := some c.value
  type  := c.type

-- The first and the last call for a name.
def first (cs : List Addition) (n : Text) : Option Addition :=
  cs.find? fun c => sameIgnoringCase c.name n

def last (cs : List Addition) (n : Text) : Option Addition :=
  cs.reverse.find? fun c => sameIgnoringCase c.name n

-- What the calls are to leave: the last value under each name, the names in the order of their first
-- calls.
structure Replaced (cs : List Addition) (props : List (NativeProperty CMPIValue)) : Prop where
  last  : ∀ n, ∀ c ∈ last cs n, ∃ p, getProperty props n = some p ∧ c.assignment.ReadBy p
  order : props.map (·.name.lower) = (cs.map (·.name.lower)).eraseDups
  count : props.length = (cs.map (·.name.lower)).eraseDups.length

-- A value that is read as that of another call when it is stored.
structure Agrees (f c : Addition) : Prop where
  type  : (if f.type = .chars then CMPIType.string else f.type) = if c.type = .chars then .string else c.type
  value : (if f.type = .chars then charsValue (some f.value) else native_clone_CMPIValue f.type f.value) ∈
    if c.type = .chars then [charsValue (some c.value)] else [c.value, c.value.clone]

-- No name is added again with another value.
def Settled (cs : List Addition) : Prop :=
  ∀ n, ∀ f ∈ first cs n, ∀ c ∈ last cs n, f.Agrees c

-- What is to be held for an argument of a response.
structure Carried (a q : NativeProperty CMPIValue) : Prop where
  null  : a.type = .null → q.state.isNull
  value : Assignment.ReadBy ⟨a.name, some a.value, a.type⟩ q

-- `invokeMethod` leaves every argument of the response in the list it is given.
def Merged (rh : ResponseHdr) (out : CMPIArgs) : Prop :=
  ∃ st data out', Client.invokeMethod rh (some out) = .ok (st, data, some out') ∧
    ∀ args ∈ rh.outArgs, ∀ a ∈ args, ∃ q, getProperty out' a.name = some q ∧ Carried a q

-- No argument of the response is in the list already with another value.
def Fresh (rh : ResponseHdr) (out : CMPIArgs) : Prop :=
  ∀ args ∈ rh.outArgs, ∀ a ∈ args, ∀ q ∈ getProperty out a.name, Carried a q

section

variable {state : CMPIValueState} {n : Text} {A : Type} (w : A → Assignment)

def made (state : CMPIValueState) (w : Assignment) : NativeProperty CMPIValue :=
  .new w.name w.type state (w.value.getD .zero)

def added (state : CMPIValueState) (cs : List A) (props : List (NativeProperty CMPIValue)) :
    List (NativeProperty CMPIValue) :=
  cs.foldl (fun props c => addProperty props (w c).name (w c).type state ((w c).value.getD .zero)) props

-- The property of a name is the one that was there, or else that of the first call.
theorem get_added (cs : List A) (props : List (NativeProperty CMPIValue)) (n : Text) :
    getProperty (added w state cs props) n =
      (getProperty props n).or ((cs.find? fun c => sameIgnoringCase (w c).name n).map fun c => made state (w c)) := by
  induction cs generalizing props with
  | nil          => simp [added]
  | cons c cs hi =>
    have hg := @Named.get_add _ NativeProperty.name (made state (w c)) props (w c).name (NativeProperty.new_name ..) n
    have ha : getProperty (addProperty props (w c).name (w c).type state ((w c).value.getD .zero)) n =
        if (w c).name.lower = n.lower then some ((getProperty props n).getD (made state (w c)))
        else getProperty props n := hg
    have hs := hi (addProperty props (w c).name (w c).type state ((w c).value.getD .zero))
    rw [added, List.foldl_cons]
    rw [added] at hs
    rw [hs, ha]
    by_cases hc : (w c).name.lower = n.lower
    · cases getProperty props n <;> simp [hc]
    · simp [hc]

theorem eraseDups_concat {α : Type} [BEq α] [LawfulBEq α] (l : List α) (a : α) [Decidable (a ∈ l)] :
    (l ++ [a]).eraseDups = l.eraseDups ++ if a ∈ l then [] else [a] := by
  rw [List.eraseDups_append]
  by_cases h : a ∈ l <;> simp [List.removeAll, h, List.eraseDups_cons]

theorem added_order (state : CMPIValueState) (cs : List A) :
    (added w state cs []).map (·.name.lower) = (cs.map fun c => (w c).name.lower).eraseDups := by
  induction cs using List.reverseRecOn with
  | nil                      => rfl
  | append_singleton cs c hi =>
    have hadd : added w state (cs ++ [c]) [] =
        Named.add NativeProperty.name (made state (w c)) (added w state cs []) (w c).name := by
      simp [added, addProperty, made]
    have hget : (Named.get NativeProperty.name (added w state cs []) (w c).name).isSome ↔
        (w c).name.lower ∈ cs.map fun c => (w c).name.lower := by
      have hg : Named.get NativeProperty.name (added w state cs []) (w c).name = _ := get_added w cs [] (w c).name
      rw [hg]
      simp [getProperty, Named.get]
    rw [hadd, Named.add, List.map_append, List.map_singleton, eraseDups_concat, ← hi]
    by_cases hc : (w c).name.lower ∈ cs.map fun c => (w c).name.lower
    · simp [hget.mpr hc, hc]
    · simp [mt hget.mp hc, hc, made]

theorem made_spec (hs : state.isNull = false) (w : Assignment) {v : CMPIValue} (hv : w.value = some v)
    (hn : w.type ≠ .null) :
    (made state w).type = (if w.type = .chars then .string else w.type) ∧ (made state w).state = state ∧
      (made state w).value = if w.type = .chars then charsValue (some v) else native_clone_CMPIValue w.type v := by
  have hst : state ≠ .null := by
    intro h
    subst h
    cases hs
  by_cases hc : w.type = .chars
  · simp [made, NativeProperty.new, hst, hv, hc, CMPIType.chars, CMPIType.null]
  · simp [made, NativeProperty.new, hst, hv, hc, hn]

end

section

variable {state : CMPIValueState} {cs : List Addition}

theorem addKeys_eq (cop : CMPIObjectPath) (cs : List Addition) :
    addKeys cop cs = .ok { cop with keys := added assignment .key cs cop.keys } := by
  induction cs generalizing cop with
  | nil          => rfl
  | cons c cs hi =>
    rw [addKeys, List.foldlM_cons, NativeCop.addKey_some]
    exact hi _

theorem addArgs_eq (args : CMPIArgs) (cs : List Addition) :
    addArgs args cs = .ok (added assignment .good cs args) := by
  induction cs generalizing args with
  | nil          => rfl
  | cons c cs hi => exact hi _

-- What a call stores is read as what another call stores.
theorem readBy_made_iff (hs : state.isNull = false) (f c : Addition) :
    c.assignment.ReadBy (made state f.assignment) ↔ f.Agrees c := by
  have ⟨ht, hst, hv⟩ := made_spec hs f.assignment rfl f.nonnull
  constructor
  · intro h
    have ⟨hct, _, hcv⟩ := h.value c.value rfl c.nonnull
    exact ⟨ht.symm.trans hct, hv ▸ hcv⟩
  · intro h
    refine ⟨nofun, fun v hw _ => ?_⟩
    cases hw
    exact ⟨ht.trans h.type, hst.symm ▸ hs, hv ▸ h.value⟩

theorem replaced_iff (hs : state.isNull = false) (cs : List Addition) :
    Replaced cs (added assignment state cs []) ↔ Settled cs := by
  have hl (n : Text) : getProperty (added assignment state cs []) n =
      (first cs n).map fun c => made state c.assignment := get_added assignment cs [] n
  constructor
  · intro h n f hf c hc
    have ⟨p, hp, hr⟩ := h.last n c hc
    rw [hl, hf] at hp
    cases hp
    exact (readBy_made_iff hs f c).mp hr
  · intro h
    refine ⟨fun n c hc => ?_, added_order assignment state cs, ?_⟩
    · have hmem := List.mem_reverse.mp (List.mem_of_find?_eq_some hc)
      have hn := List.find?_some hc
      have hf : (first cs n).isSome := List.find?_isSome.mpr ⟨c, hmem, hn⟩
      have ⟨f, hf⟩ := Option.isSome_iff_exists.mp hf
      exact ⟨made state f.assignment, by rw [hl, hf]; rfl, (readBy_made_iff hs f c).mpr (h n f hf c hc)⟩
    · have ho := congrArg List.length (added_order assignment state cs)
      rwa [List.length_map] at ho

end

section

variable {req : Request} {ts : List Tok} {rh : ResponseHdr} {args out : CMPIArgs}

-- An argument of a response.
def ofArg (a : NativeProperty CMPIValue) : Assignment where
  name  := a.name
  value := some a.value
  type  := a.type

theorem addOutArgs_eq (out args : CMPIArgs) : Client.addOutArgs out args = .ok (added ofArg .good args out) := by
  induction args generalizing out with
  | nil            => rfl
  | cons a args hi => exact hi _

-- The arguments of a response were added one by one.
structure Parsed (args : CMPIArgs) : Prop where
  distinct : Named.Distinct NativeProperty.name args
  made     : ∀ a ∈ args, ∃ name type v, a = .new name type .good v

theorem foldlM_addReturnArg_parsed {xs : List XtokParamValue} (ha : Parsed args) {args' : CMPIArgs}
    (h : xs.foldlM addReturnArg args = .ok args') : Parsed args' := by
  induction xs generalizing args with
  | nil          =>
    cases h
    exact ha
  | cons x xs hi =>
    rw [List.foldlM_cons] at h
    have ⟨args₁, h₁, h⟩ := ok_bind.mp h
    have ⟨a, hx, _, hadd⟩ := addReturnArg_ok h₁
    have ⟨v, _, hx⟩ := ok_bind.mp hx
    have ⟨name, _, hx⟩ := ok_bind.mp hx
    cases hx
    subst hadd
    exact hi ⟨Named.add_distinct ha.distinct rfl, Named.forall_add ha.made ⟨_, _, _, rfl⟩⟩ h

theorem setReturnArgs_parsed {hdr : ResponseHdr} (ho : hdr.outArgs = none) {resp : XtokMethodRespContent}
    (h : hdr.setReturnArgs resp = .ok rh) : ∀ args ∈ rh.outArgs, Parsed args := by
  rw [ResponseHdr.setReturnArgs] at h
  split at h
  · cases h
    rw [ho]
    exact nofun
  · have ⟨args, hargs, h⟩ := ok_bind.mp h
    cases h
    intro args' ha
    cases ha
    have hn : Parsed [] := ⟨List.nodup_nil, fun _ ha => absurd ha List.not_mem_nil⟩
    exact foldlM_addReturnArg_parsed hn hargs

theorem scanResponse_parsed (h : scanResponse req ts = .ok rh) : ∀ args ∈ rh.outArgs, Parsed args := by
  have ⟨⟨m, ts', ht⟩, hr⟩ := Grammar.scanResponse_accepted h
  have hm := hr m ts' ht
  match m with
  | .method (.error e) | .iMethod (.error e) =>
    have ⟨_, _, hm⟩ := ok_bind.mp hm
    have ⟨_, _, hm⟩ := ok_bind.mp hm
    cases hm
    exact nofun
  | .method (.values none ps) => exact setReturnArgs_parsed rfl hm
  | .method (.values (some ret) ps) =>
    have ⟨v, _, hm⟩ := ok_bind.mp hm
    exact setReturnArgs_parsed rfl hm
  | .iMethod (.content content) =>
    have hc := (content.result_eq {}).symm.trans hm
    cases hv : content.values req with
    | error e =>
      rw [hv] at hc
      cases hc
    | ok vs   =>
      rw [hv] at hc
      have ho : (vs.foldl ResponseHdr.simpleArrayAdd {}).outArgs = none := by
        rw [foldl_simpleArrayAdd]
      rw [← Except.ok.inj hc, ho]
      exact nofun
  | .indication none =>
    cases hm
    exact nofun
  | .indication (some inst) =>
    have ⟨v, _, hm⟩ := ok_bind.mp hm
    cases hm
    exact nofun

-- An argument of a response is carried over by adding it.
theorem carried_made {a : NativeProperty CMPIValue}
    (ha : ∃ name type v, a = NativeProperty.new name type .good v) : Carried a (made .good (ofArg a)) := by
  obtain ⟨name, type, v, ha⟩ := ha
  by_cases hn : type = .null
  · subst hn ha
    have hs : (made .good (ofArg (.new name .null .good v))).state = .null := by
      simp [made, ofArg, NativeProperty.new]
    exact ⟨fun _ => congrArg CMPIValueState.isNull hs, ⟨fun hn => absurd hn (Option.some_ne_none _), fun _ _ hn => absurd rfl hn⟩⟩
  · obtain ⟨ht, _, hv⟩ := made_spec Assignment.good_isNull ⟨name, some v, type⟩ rfl hn
    have hat : a.type = if type = .chars then .string else type := ha ▸ ht
    have hav : a.value = if type = .chars then charsValue (some v) else native_clone_CMPIValue type v := ha ▸ hv
    have han : a.type ≠ .null := by
      rw [hat]
      split
      · decide
      · exact hn
    have hac : a.type ≠ .chars := by
      rw [hat]
      split
      · decide
      · assumption
    obtain ⟨hmt, hms, hmv⟩ := made_spec Assignment.good_isNull (ofArg a) rfl han
    have hat' : (ofArg a).type = a.type := rfl
    refine ⟨fun h => absurd h han, fun hn => absurd hn (Option.some_ne_none _), fun w hw _ => ⟨hmt, congrArg CMPIValueState.isNull hms, ?_⟩⟩
    cases hw
    rw [hmv, hat', if_neg hac, if_neg hac]
    apply Assignment.native_clone_mem_iff.mpr
    intro hl
    have hc : type ≠ .chars := by
      intro hc
      rw [hat, if_pos hc] at hl
      cases hl
    rw [hat, if_neg hc] at hl
    simp [hav, hc, native_clone_CMPIValue, CMPIType.cloneWith, hl]

theorem merged_iff (h : scanResponse req ts = .ok rh) (he : rh.errCode = 0) (out : CMPIArgs) :
    Merged rh out ↔ Fresh rh out := by
  have hp := scanResponse_parsed h
  cases hout : rh.outArgs with
  | none      =>
    have hi : ∃ st data, Client.invokeMethod rh (some out) = .ok (st, data, some out) := by
      simp only [Client.invokeMethod, he, hout]
      exact ⟨_, _, rfl⟩
    have ⟨st, data, hi⟩ := hi
    exact iff_of_true ⟨st, data, out, hi, by rw [hout]; exact nofun⟩ (by rw [Fresh, hout]; exact nofun)
  | some args =>
    have ha := hp args hout
    have hi : ∃ st data, Client.invokeMethod rh (some out) = .ok (st, data, some (added ofArg .good args out)) := by
      simp only [Client.invokeMethod, he, hout, addOutArgs_eq]
      exact ⟨_, _, rfl⟩
    have ⟨st, data, hi⟩ := hi
    have hg (a : NativeProperty CMPIValue) (hm : a ∈ args) : getProperty (added ofArg .good args out) a.name =
        (getProperty out a.name).or (some (made .good (ofArg a))) := by
      have hf : (args.find? fun c => sameIgnoringCase (ofArg c).name a.name) = some a :=
        Named.get_of_mem ha.distinct hm rfl
      rw [get_added, hf]
      rfl
    constructor
    · intro hm
      have ⟨_, _, out', hi', hm⟩ := hm
      cases hi.symm.trans hi'
      intro args' hargs a hmem q hq
      cases hout.symm.trans hargs
      have ⟨q', hq', hc⟩ := hm args hout a hmem
      rw [hg a hmem, hq] at hq'
      cases hq'
      exact hc
    · intro hf
      refine ⟨st, data, _, hi, fun args' hargs a hmem => ?_⟩
      cases hout.symm.trans hargs
      rw [hg a hmem]
      cases hq : getProperty out a.name with
      | none   => exact ⟨_, rfl, carried_made (ha.made a hmem)⟩
      | some q => exact ⟨q, rfl, hf args hout a hmem q hq⟩

-- What is there already is not replaced, neither by a call nor by a response.
theorem replaced_iff_settled (ns cn : Option Text) (cs : List Addition) (h : scanResponse req ts = .ok rh)
    (he : rh.errCode = 0) (out : CMPIArgs) :
    ((∃ cop, addKeys (newCMPIObjectPath ns cn) cs = .ok cop ∧ Replaced cs cop.keys) ↔ Settled cs) ∧
    ((∃ args, addArgs [] cs = .ok args ∧ Replaced cs args) ↔ Settled cs) ∧
    (Merged rh out ↔ Fresh rh out) := by
  refine ⟨?_, ?_, merged_iff h he out⟩
  · have hk : CMPIValueState.isNull .key = false := rfl
    rw [addKeys_eq]
    simpa [newCMPIObjectPath] using replaced_iff hk cs
  · rw [addArgs_eq]
    simpa using replaced_iff Assignment.good_isNull cs

end

-- A key and an argument with the same name.
def flag (b : Bool) : Addition where
  name    := [102]
  value   := .boolean b
  type    := .boolean
  nonnull := by decide

-- Two calls with one name and one with another, and a response with an argument that is there already.
def flags : List Addition :=
  [flag true, { name := [103], value := .uint32 7, type := .uint32, nonnull := by decide }, flag false]

theorem replaced_iff_settled_flags : ∃ rh, scanResponse { bytesOf := fun _ => [] }
      ((Message.method (.values none [Grammar.textParam [102] [116], Grammar.textParam [104] [117]])).document ++ []) = .ok rh ∧
    ((∃ cop, addKeys (newCMPIObjectPath none none) flags = .ok cop ∧ Replaced flags cop.keys) ↔ Settled flags) ∧
    ((∃ args, addArgs [] flags = .ok args ∧ Replaced flags args) ↔ Settled flags) ∧
    (Merged rh [⟨[70], .boolean, .good, .boolean true, []⟩] ↔ Fresh rh [⟨[70], .boolean, .good, .boolean true, []⟩]) := by
  let m : Message := .method (.values none [Grammar.textParam [102] [116], Grammar.textParam [104] [117]])
  have h : scanResponse { bytesOf := fun _ => [] } (m.document ++ []) = .ok _ := Grammar.scanResponse_document rfl []
  exact ⟨_, h, replaced_iff_settled none none flags h rfl _⟩

theorem not_replaced_flag : ¬ ∀ (ns cn : Option Text) (cs : List Addition),
    ∃ cop, addKeys (newCMPIObjectPath ns cn) cs = .ok cop ∧ Replaced cs cop.keys := by
  intro h
  have ⟨cop, hc, hr⟩ := h none none [flag true, flag false]
  cases hc
  have ⟨p, hp, hread⟩ := hr.last [102] (flag false) rfl
  cases hp
  have ⟨_, _, hv⟩ := hread.value (.boolean false) rfl (by decide)
  cases hv with
  | tail _ hv => cases hv with
    | tail _ hv => cases hv

end Addition
end Sfcc
