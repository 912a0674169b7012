import Sfcc.Client
import Sfcc.Theorems.Xml.Built
import Sfcc.Theorems.Xml.Results

namespace Sfcc

open Descent Xml Xml.Tree

-- An element that was stored first, with the type `type`.
def StoredFirst (a : CMPIArray) (type : CMPIType) : Prop :=
  ∃ v vs, a = stored ((v, type) :: vs)

theorem storedFirst_iff (vs : List (CMPIValue × CMPIType)) (type : CMPIType) :
    StoredFirst (stored vs) type ↔ vs.head?.map Prod.snd = some type := by
  constructor
  · intro h
    have ⟨v, ws, hs⟩ := h
    cases vs with
    | nil =>
      have hl := congrArg (fun a => a.data.length) hs
      simp only [stored_length, List.length_nil, List.length_cons] at hl
      omega
    | cons w vs =>
      have ht := congrArg NativeArray.type hs
      simp only [stored_cons_type] at ht
      exact congrArg some ht
  · intro h
    cases vs with
    | nil       => cases h
    | cons w vs => exact ⟨w.1, vs, by rw [← Option.some.inj h]⟩

-- Which operations use the first result of a response, and as what.
namespace Client

inductive Operation
  | getInstance
  | getClass
  | createInstance
  | getProperty

namespace Operation

def status : Operation → ResponseHdr → Except Fault CMPIStatus
  | .getInstance,    rh => Prod.fst <$> Client.getInstance rh
  | .getClass,       rh => Prod.fst <$> Client.getClass rh
  | .createInstance, rh => return (Client.createInstance rh).1
  | .getProperty,    rh => return (Client.getProperty rh).1

-- The value of a property is used as what its type says.
def type : Operation → ResponseHdr → CMPIType
  | .getInstance,    _  => .inst
  | .getClass,       _  => .cls
  | .createInstance, _  => .ref
  | .getProperty,    rh => (Client.getProperty rh).2.type

-- Either an error is reported, or what is used was stored as such.
def ReadsAsStored (op : Operation) (rh : ResponseHdr) : Prop :=
  (∃ st, op.status rh = .ok st ∧ st.rc ≠ 0) ∨ StoredFirst rh.rvArray (op.type rh)

-- Whether a response with a first result of the type `first` is one to the operation.
def Suits (first : Option CMPIType) : Operation → Prop
  | .getInstance    => first = some .inst
  | .getClass       => first = some .cls
  | .createInstance => first = some .ref
  | .getProperty    => first.isSome

theorem status_ok {rh : ResponseHdr} (he : rh.errCode = 0) (op : Operation) {st : CMPIStatus}
    (h : op.status rh = .ok st) : st.rc = 0 := by
  cases op
  case createInstance | getProperty =>
    simp only [status, Client.createInstance, Client.getProperty, he] at h
    cases h
    rfl
  all_goals
    simp only [status, Client.getInstance, Client.getClass, Client.cloneFirst, he] at h
    cases hc : CMClone (rh.rvArray.elementAt 0).value with
    | error e =>
      rw [hc] at h
      cases h
    | ok v    =>
      rw [hc] at h
      cases h
      rfl

theorem elementAt_type (a : CMPIArray) (i : Nat) : (a.elementAt i).type = a.type := by
  unfold NativeArray.elementAt
  cases a.data[i]? <;> rfl

theorem getProperty_type {rh : ResponseHdr} (he : rh.errCode = 0) :
    (Client.getProperty rh).2.type = rh.rvArray.type := by
  simp only [Client.getProperty, he]
  exact elementAt_type _ _

theorem readsAsStored_iff {rh : ResponseHdr} {vs : List (CMPIValue × CMPIType)}
    (he : rh.errCode = 0) (ha : rh.rvArray = stored vs) (op : Operation) :
    op.ReadsAsStored rh ↔ op.Suits (vs.head?.map Prod.snd) := by
  have hs : ¬ ∃ st, op.status rh = .ok st ∧ st.rc ≠ 0 :=
    fun ⟨st, hst, hne⟩ => hne (op.status_ok he hst)
  rw [ReadsAsStored, or_iff_right hs, ha, storedFirst_iff]
  cases op
  case getProperty =>
    rw [type, getProperty_type he, ha]
    cases vs with
    | nil       => exact iff_of_false nofun nofun
    | cons v vs => exact iff_of_true (by rw [stored_cons_type]; rfl) rfl
  all_goals rfl

end Operation

end Client

namespace Xml.Tree

def ReturnValue.storedType : ReturnValue → CMPIType
  | .reference _ _          => .ref
  | .value _ (.cdata _ _)   => .inst
  | .value type (.text text) => if type = .null then guessType (text.getD []) else type

-- Whether there is a result at all.
def ReturnContent.stores : ReturnContent → Bool
  | .classes l                           => !l.isEmpty
  | .classNames l                        => !l.isEmpty
  | .instances l                         => !l.isEmpty
  | .instanceNames l                     => !l.isEmpty
  | .namedInstances l                    => !l.isEmpty
  | .objectPaths l                       => !l.isEmpty
  | .objectsWithPath l                   => l.any fun o => o.inst?.isSome
  | .value _                             => true
  | .valueArray _ | .valueReference _    => false

-- The type of the first result of a response.
def Message.firstType (req : Request) : Message → Option CMPIType
  | .method (.values ret _)     => ret.map ReturnValue.storedType
  | .iMethod (.content content) => if content.stores then some (content.type req) else none
  | .indication inst            => inst.map fun _ => .inst
  | _                           => none

theorem ReturnContent.values_ne_nil {req : Request} {c : ReturnContent}
    {vs : List (CMPIValue × CMPIType)} (h : c.values req = .ok vs) : vs ≠ [] ↔ c.stores := by
  cases c
  case value v =>
    have ⟨r, _, hvs⟩ := ok_bind.mp h
    cases hvs
    simp [stores]
  case valueArray _ | valueReference _ =>
    cases h
    simp [stores]
  all_goals
    have hl := (mapM_ok.mp h).length_eq
    rw [← List.length_pos_iff, ← hl, List.length_pos_iff]
    simp [stores, Option.isSome_iff_ne_none]

theorem ReturnContent.values_head {req : Request} {c : ReturnContent}
    {vs : List (CMPIValue × CMPIType)} (h : c.values req = .ok vs) :
    vs.head?.map Prod.snd = if c.stores then some (c.type req) else none := by
  cases vs with
  | nil       =>
    rw [if_neg fun hs => (values_ne_nil h).mpr hs rfl]
    rfl
  | cons v vs =>
    rw [if_pos ((values_ne_nil h).mp (by simp)), List.head?_cons, Option.map_some,
      values_type h v (List.mem_cons_self ..)]

theorem ReturnValue.returned_type {req : Request} {ret : ReturnValue} {v : CMPIValue × CMPIType}
    (h : returned req ret.xtok = .ok v) : v.2 = ret.storedType := by
  cases ret with
  | reference type ref =>
    have ⟨p, _, hp⟩ := ok_bind.mp h
    cases hp
    rfl
  | value type value =>
    cases value with
    | cdata text i =>
      have ⟨i', _, hi⟩ := ok_bind.mp h
      cases hi
      rfl
    | text text =>
      let store (t : CMPIType) : Except Fault (CMPIValue × CMPIType) :=
        str2CMPIValueOf t text >>= fun w => pure (w, t)
      have hr : (if type = .null then guessType <$> deref text >>= store else store type) = .ok v := h
      have hs {t : CMPIType} (h : store t = .ok v) : v.2 = t := by
        have ⟨w, _, hw⟩ := ok_bind.mp h
        cases hw
        rfl
      show v.2 = if type = .null then guessType (text.getD []) else type
      by_cases hn : type = .null
      · rw [if_pos hn] at hr ⊢
        cases text with
        | none   => cases hr
        | some x => exact hs hr
      · rw [if_neg hn] at hr ⊢
        exact hs hr

theorem setReturnArgs_rvArray {hdr rh : ResponseHdr} {resp : XtokMethodRespContent}
    (h : hdr.setReturnArgs resp = .ok rh) : rh.rvArray = hdr.rvArray := by
  rw [ResponseHdr.setReturnArgs] at h
  split at h
  case isTrue =>
    cases h
    rfl
  case isFalse =>
    have ⟨args, _, h⟩ := ok_bind.mp h
    cases h
    rfl

theorem ReturnContent.values_result {req : Request} {c : ReturnContent}
    {vs : List (CMPIValue × CMPIType)} (hq : ∀ p, req.objectPath = some p → p.Built)
    (h : c.values req = .ok vs) : ∀ v ∈ vs, Result v := by
  cases c
  case classes         => exact mapM_forall h classResult_result
  case classNames      => exact mapM_forall h classNameResult_result
  case instances       => exact mapM_forall h (instanceResult_result hq)
  case instanceNames   => exact mapM_forall h instanceNameResult_result
  case namedInstances  => exact mapM_forall h namedInstanceResult_result
  case objectPaths     => exact mapM_forall h objectPathResult_result
  case objectsWithPath => exact mapM_forall h instanceWithPathResult_result
  case value v =>
    have ⟨r, hr, hvs⟩ := ok_bind.mp h
    cases hvs
    simpa using propertyResult_result hr
  case valueArray | valueReference =>
    cases h
    exact nofun

-- What a message stores: all of it has the type of what is stored first.
structure Message.Stores (m : Message) (req : Request) (vs : List (CMPIValue × CMPIType)) : Prop where
  head    : vs.head?.map Prod.snd = m.firstType req
  type    : ∀ v ∈ vs, m.firstType req = some v.2
  results : (∀ p, req.objectPath = some p → p.Built) → ∀ v ∈ vs, Result v

theorem Message.stores_nil {m : Message} {req : Request} (h : m.firstType req = none) :
    m.Stores req [] where
  head      := h.symm
  type      := nofun
  results _ := nofun

theorem Message.stores_singleton {m : Message} {req : Request} {v : CMPIValue × CMPIType}
    (h : m.firstType req = some v.2) (hv : Result v) : m.Stores req [v] where
  head      := h.symm
  type      := by simpa using h
  results _ := by simpa using hv

theorem Message.result_stored {req : Request} {m : Message} {rh : ResponseHdr}
    (h : m.result req {} = .ok rh) : ∃ vs, rh.rvArray = stored vs ∧ m.Stores req vs := by
  match m with
  | .method (.error e) | .iMethod (.error e) =>
    have ⟨code, _, h⟩ := ok_bind.mp h
    have ⟨description, _, h⟩ := ok_bind.mp h
    cases h
    exact ⟨[], rfl, stores_nil rfl⟩
  | .method (.values none params) =>
    exact ⟨[], setReturnArgs_rvArray h, stores_nil rfl⟩
  | .method (.values (some ret) params) =>
    have ⟨v, hv, h⟩ := ok_bind.mp h
    have ht := congrArg some (ReturnValue.returned_type hv)
    exact ⟨[v], setReturnArgs_rvArray h, stores_singleton ht.symm (returned_result hv)⟩
  | .iMethod (.content content) =>
    change content.result req {} = .ok rh at h
    rw [content.result_eq] at h
    cases hv : content.values req with
    | error e => simp [hv, Except.map] at h
    | ok vs   =>
      rw [hv] at h
      cases h
      have ht : ∀ v ∈ vs, (if content.stores then some (content.type req) else none) = some v.2 := by
        intro v hm
        rw [if_pos ((ReturnContent.values_ne_nil hv).mp (List.ne_nil_of_mem hm)),
          values_type hv v hm]
      refine ⟨vs, congrArg ResponseHdr.rvArray (foldl_simpleArrayAdd vs {}), ?_⟩
      exact ⟨ReturnContent.values_head hv, ht, fun hq => ReturnContent.values_result hq hv⟩
  | .indication none =>
    cases h
    exact ⟨[], rfl, stores_nil rfl⟩
  | .indication (some inst) =>
    have ⟨v, hv, hs⟩ := ok_bind.mp h
    have hr := exported_result hv
    have ⟨i, _, hi⟩ := ok_bind.mp hv
    cases hs
    cases hi
    exact ⟨[(.inst i, .inst)], rfl, stores_singleton rfl hr⟩

end Xml.Tree

namespace Client

-- A response without an error suits the operation, or the operation uses a value as what it was not
-- stored as.
theorem readsAsStored_iff_suits {req : Request} {ts : List Tok} {rh : ResponseHdr}
    (h : scanResponse req ts = .ok rh) (he : rh.errCode = 0) (op : Operation) :
    (∃ (m : Message) (ts' : _), ts = m.document ++ ts') ∧
    ∀ (m : Message) ts', ts = m.document ++ ts' →
      (op.ReadsAsStored rh ↔ op.Suits (m.firstType req)) := by
  have ⟨hb, hr⟩ := Grammar.scanResponse_accepted h
  refine ⟨hb, fun m ts' ht => ?_⟩
  have ⟨vs, ha, hs⟩ := m.result_stored (hr m ts' ht)
  rw [op.readsAsStored_iff he ha, hs.head]

-- The names of two classes, for each operation.
theorem readsAsStored_iff_suits_classNames : ∃ rh, scanResponse { bytesOf := fun _ => [] }
      ((Message.iMethod (.content (.classNames [some (bytes "A"), some (bytes "B")]))).document ++ []) = .ok rh ∧
    ∀ op : Operation, op.ReadsAsStored rh ↔ op.Suits (some .ref) := by
  let m : Message := .iMethod (.content (.classNames [some (bytes "A"), some (bytes "B")]))
  have h : scanResponse { bytesOf := fun _ => [] } (m.document ++ []) = .ok _ := Grammar.scanResponse_document rfl []
  exact ⟨_, h, fun op => (readsAsStored_iff_suits h rfl op).right m [] rfl⟩

-- `getInstance` takes the name of a class for an instance.
theorem not_readsAsStored_className : ¬ ∀ req ts rh, scanResponse req ts = .ok rh →
    rh.errCode = 0 → ∀ op : Operation, op.ReadsAsStored rh := by
  intro h
  let v : CMPIValue × CMPIType := (.ref (newCMPIObjectPath none (some [65])), .ref)
  let m : Message := .iMethod (.content (.classNames [some [65]]))
  have hr := h { bytesOf := fun _ => [] } m.document { rvArray := stored [v] } rfl rfl .getInstance
  have ha : ({ rvArray := stored [v] } : ResponseHdr).rvArray = stored [v] := rfl
  rw [Operation.readsAsStored_iff rfl ha] at hr
  cases hr

end Client
end Sfcc
