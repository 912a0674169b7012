import Sfcc.Indication
import Sfcc.Theorems.Listener
import Sfcc.Theorems.Xml.Documents
import Sfcc.Theorems.Xml.Wire

-- From the instance that a server sends to the one that the listener gives on.
namespace Sfcc

namespace Xml

-- The tokens around an instance that is exported.
def exportOpening : List Tok :=
  [.X .XML (), .Z .XML, .X .CIM (), .X .MESSAGE (), .X .SIMPLEEXPREQ (), .X .EXPMETHODCALL (), .X .EXPPARAMVALUE ()]

def exportClosing : List Tok :=
  [.Z .EXPPARAMVALUE, .Z .EXPMETHODCALL, .Z .SIMPLEEXPREQ, .Z .MESSAGE]

theorem indication_document (t : Tree.Instance) :
    (Tree.Message.indication (some t)).document = exportOpening ++ (t.yield ++ (exportClosing ++ [.Z .CIM])) := by
  simp [Tree.Message.document, Tree.Message.yield, Tree.tagged, exportOpening, exportClosing]

variable {printg : Text → Text} {i : CMPIInstance} {text : Text}

theorem addXmlInstance_head (h : addXmlInstance printg none i = .ok text) : text.head? = some 60 := by
  obtain ⟨path, hpath, _⟩ := getObjectPath_classname i
  rw [addXmlInstance, hpath] at h
  obtain ⟨_, hpath, h⟩ := ok_bind.mp h
  obtain ⟨props, _, h⟩ := ok_bind.mp h
  cases h
  rfl

-- What is exported is read with its class, its properties and their order.
theorem indication_read (hi : Transferable Content i) (hx : addXmlInstance printg none i = .ok text) {pre post : Text}
    (hpre : Spells pre exportOpening) (hpost : Spells post exportClosing) (rest : Text) (bytesOf : XtokInstance → Text) :
    ∃ qs, cloneProperties qs = qs ∧ contents qs = contents i.props ∧
      scanResponse ⟨none, bytesOf⟩ (tokens (pre ++ (text ++ (post ++ (endTag (bytes "CIM") ++ rest))))) =
        .ok (({} : ResponseHdr).simpleArrayAdd (.inst { classname := i.classname, props := qs }, .inst)) := by
  obtain ⟨cn, hcn, hname⟩ := hi.classname
  have hw : ∀ p ∈ i.props, ∃ text t, Wires printg p text t := fun p hp =>
    (hi.values p hp).right.wires ((hi.names p hp).not_mem 34 (by simp)) (hi.values p hp).left
  obtain ⟨text', t, hx', hl, htc, hr⟩ := instance_wire hcn (hname.not_mem 34 (by simp)) hi.distinct hw
    (fun _ (h : _ ∈ (none : Option CMPIObjectPath)) => absurd h (by simp))
  obtain rfl : text' = text := Except.ok.inj (hx'.symm.trans hx)
  obtain ⟨qs, hq, hcs, hqs⟩ := hr (NativeInstance.setNsAndCn {} none t.xtok.className) .null rfl
  have he : ⟨bytes "CIM", procCim, .Z .CIM⟩ ∈ elements := List.mem_of_getElem? (i := 1) rfl
  obtain ⟨us, ht⟩ := hl.tokens_within (addXmlInstance_head hx) hpre hpost he rest
  have hd : exportOpening ++ (t.yield ++ exportClosing) ++ Tok.Z .CIM :: us =
      (Tree.Message.indication (some t)).document ++ us := by
    rw [indication_document]
    simp only [List.append_assoc, List.cons_append, List.nil_append]
  have hin : instanceIn none t.xtok = .ok { classname := i.classname, props := qs } := by
    rw [instanceIn, setInstProperties, hqs, htc, hcn]
    rfl
  have hex : exported ⟨none, bytesOf⟩ t.xtok = .ok (.inst { classname := i.classname, props := qs }, .inst) := by
    rw [exported, show (⟨none, bytesOf⟩ : Request).nameSpace = none from rfl, hin]
    rfl
  refine ⟨qs, hq, hcs, ?_⟩
  rw [ht, hd, scanResponse_document, Tree.Message.result, Option.elim_some, hex]
  rfl

end Xml

namespace Listener

open Xml

section

variable {printg : Text → Text} {i : CMPIInstance} {text pre post rest : Text}

theorem processIndication_eq (hi : Transferable Content i) (hx : addXmlInstance printg none i = .ok text)
    (hpre : Spells pre exportOpening) (hpost : Spells post exportClosing) (rest : Text) (bytesOf : XtokInstance → Text) :
    ∃ qs, contents qs = contents i.props ∧
      processIndication bytesOf (pre ++ (text ++ (post ++ (endTag (bytes "CIM") ++ rest)))) =
        .ok (some (.inst { classname := i.classname, props := qs })) := by
  obtain ⟨qs, hq, hcs, hs⟩ := indication_read hi hx hpre hpost rest bytesOf
  refine ⟨qs, hcs, ?_⟩
  have hv : ((({} : ResponseHdr).simpleArrayAdd (.inst { classname := i.classname, props := qs }, .inst)).rvArray.elementAt 0).value =
      .inst { classname := i.classname, props := qs } := rfl
  have hc : CMClone (.inst { classname := i.classname, props := qs }) = .ok (.inst { classname := i.classname, props := qs }) := by
    rw [CMClone, NativeInstance.clone, hq]
    rfl
  simp only [processIndication, hs, bind, Except.bind, hv, hc]
  rfl

-- A request with an indication is answered, and the indication is given on, however both are written and delivered.
theorem indication_sent (hi : Transferable Content i) (hx : addXmlInstance printg none i = .ok text)
    (hpre : Spells pre exportOpening) (hpost : Spells post exportClosing) {r : Request} (hv : r.Valid)
    (hb : r.body = pre ++ (text ++ (post ++ (endTag (bytes "CIM") ++ rest)))) (hl : r.body.length + 8 < 2 ^ 31) {conn : List Text}
    (hc : ∀ s ∈ conn, s ≠ []) (hf : conn.flatten = r.head ++ r.body) (h5 : 5 ≤ (conn.headD []).length) (stale : Text)
    (bytesOf : XtokInstance → Text) :
    handleConnection stale conn = .processes [(bytes "HTTP/1.1", 200)] r.body ∧
      ∃ i', (handleConnection stale conn).sent bytesOf = .ok (some (.inst i')) ∧
        i'.classname = i.classname ∧ contents i'.props = contents i.props := by
  obtain ⟨_, hh⟩ := handled_eq hv hc hf h5 hl stale
  obtain ⟨qs, hcs, hs⟩ := processIndication_eq hi hx hpre hpost rest bytesOf
  refine ⟨hh, { classname := i.classname, props := qs }, ?_, rfl, hcs⟩
  rw [hh, Handled.sent, hb]
  exact hs

end

def opening : Text :=
  bytes "<?xml version=\"1.0\"?>\n<CIM CIMVERSION=\"2.0\"><MESSAGE ID=\"1\"><SIMPLEEXPREQ>\n" ++
    bytes "<EXPMETHODCALL NAME='ExportIndication'><EXPPARAMVALUE NAME=\"newIndication\">\n"

def closing : Text :=
  bytes "</EXPPARAMVALUE></EXPMETHODCALL></SIMPLEEXPREQ></MESSAGE>"

theorem opening_spelled : Spells opening exportOpening := by
  have h₀ := Spells.blank (s := [10]) (by decide) .nil
  have h₁ := Spells.named (List.mem_of_getElem? (i := 42) rfl) (.inr rfl) (by decide) ⟨rfl, rfl⟩
    (quoted_sound 34 "NAME" "newIndication" (.inl rfl) (by decide) (by decide)) rfl (by decide) nofun h₀
  have h₂ := Spells.named (List.mem_of_getElem? (i := 41) rfl) (.inl rfl) (by decide) ⟨rfl, rfl⟩
    (quoted_sound 39 "NAME" "ExportIndication" (.inr rfl) (by decide) (by decide)) rfl (by decide) nofun h₁
  have h₃ := Spells.element (List.mem_of_getElem? (i := 40) rfl) (by decide) (by decide) (by decide) (fun _ => ⟨rfl, rfl⟩)
    (bare_sound _) nofun (.blank (s := [10]) (by decide) h₂)
  have h₄ := Spells.element (List.mem_of_getElem? (i := 2) rfl) (by decide) (by decide) (by decide) (fun _ => ⟨rfl, rfl⟩)
    (quoted_sound 34 "ID" "1" (.inl rfl) (by decide) (by decide)) nofun h₃
  have h₅ := Spells.element (List.mem_of_getElem? (i := 1) rfl) (by decide) (by decide) (by decide) (fun _ => ⟨rfl, rfl⟩)
    (quoted_sound 34 "CIMVERSION" "2.0" (.inl rfl) (by decide) (by decide)) nofun h₄
  have h₆ := Spells.declaration (l := ⟨[Xml.quoted 34 "version" "1.0"], []⟩)
    (quoted_sound 34 "version" "1.0" (.inl rfl) (by decide) (by decide)) (by decide) (.blank (s := [10]) (by decide) h₅)
  exact h₆.of_eq (by decide +kernel)

theorem closing_spelled : Spells closing exportClosing := by
  have h := Spells.stopAt 42 rfl (.stopAt 41 rfl (.stopAt 40 rfl (.stopAt 2 rfl .nil)))
  exact h.of_eq (by decide +kernel)

def diskText : Text :=
  bytes "<INSTANCE CLASSNAME=\"Disk\">\n<PROPERTY NAME=\"Label\" TYPE=\"string\">\n<VALUE>a &lt; b</VALUE>\n</PROPERTY>\n" ++
    bytes "<PROPERTY.ARRAY NAME=\"Sizes\" TYPE=\"uint8\">\n<VALUE.ARRAY>\n<VALUE>7</VALUE>\n<VALUE>255</VALUE>\n" ++
      bytes "</VALUE.ARRAY>\n</PROPERTY.ARRAY>\n</INSTANCE>\n"

def Request.disk : Request where
  path    := bytes "/"
  headers := [bytes "Content-Length: 455"]
  body    := opening ++ (diskText ++ (closing ++ (endTag (bytes "CIM") ++ [10])))

theorem disk_body : Request.disk.body.length = 455 ∧ 0 ∉ Request.disk.body := by
  decide +kernel

theorem disk_valid : Request.disk.Valid where
  path    := by decide
  headers := by
    unfold Line
    decide
  length  := ⟨bytes "Content-Length: 455", rfl, by rw [disk_body.left]; decide⟩
  expect  := by decide
  host    := by decide
  short   := by decide
  body    := disk_body.right

theorem diskText_eq : addXmlInstance id none diskInstance = .ok diskText := by
  have h : (addXmlInstance id none diskInstance).toOption = some diskText := by decide +kernel
  cases hx : addXmlInstance id none diskInstance with
  | error f =>
    rw [hx] at h
    cases h
  | ok t    =>
    rw [hx] at h
    cases h
    rfl

theorem indication_sent_disk :
    handleConnection [] [Request.disk.head ++ Request.disk.body] = .processes [(bytes "HTTP/1.1", 200)] Request.disk.body ∧
      ∃ i', (handleConnection [] [Request.disk.head ++ Request.disk.body]).sent (fun _ => []) = .ok (some (.inst i')) ∧
        i'.classname = diskInstance.classname ∧ contents i'.props = contents diskInstance.props := by
  have hne : Request.disk.body ≠ [] := by
    apply List.ne_nil_of_length_pos
    rw [disk_body.left]
    decide
  have hc : ∀ s ∈ [Request.disk.head ++ Request.disk.body], s ≠ [] :=
    List.forall_mem_singleton.mpr (List.append_ne_nil_of_right_ne_nil _ hne)
  have hl : Request.disk.body.length + 8 < 2 ^ 31 := by
    rw [disk_body.left]
    decide
  have h5 : 5 ≤ ([Request.disk.head ++ Request.disk.body].headD []).length := by
    rw [List.headD_cons, List.length_append, disk_body.left]
    exact Nat.le_add_left_of_le (by decide)
  exact indication_sent transferable_disk diskText_eq opening_spelled closing_spelled disk_valid rfl hl hc (List.append_nil _) h5 [] _

end Listener

end Sfcc
