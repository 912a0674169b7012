import Sfcc.Theorems.Enumeration

-- What becomes of the error in a response.
namespace Sfcc

open Xml Xml.Tree

namespace Client

-- The operations that a response is read for.
inductive Call
  | enumerating (op : Enumerating)
  | getInstance
  | getClass
  | createInstance
  | getProperty
  | invokeMethod
  | setInstance
  | deleteInstance
  | setProperty

-- The result of an operation that has none.
def notFound : CMPIData where
  type  := .null
  state := .notFound ||| .null
  value := .zero

-- Whether an operation returns a status that is not `CMPI_RC_OK`, and nothing else.
def Call.Fails : Call → ResponseHdr → Prop
  | .enumerating op, rh => ∃ st, op.run rh = (st, none) ∧ st.rc ≠ 0
  | .getInstance,    rh => ∃ st, Client.getInstance rh = .ok (st, .zero) ∧ st.rc ≠ 0
  | .getClass,       rh => ∃ st, Client.getClass rh = .ok (st, .zero) ∧ st.rc ≠ 0
  | .createInstance, rh => ∃ st, Client.createInstance rh = (st, .zero) ∧ st.rc ≠ 0
  | .getProperty,    rh => ∃ st, Client.getProperty rh = (st, notFound) ∧ st.rc ≠ 0
  | .invokeMethod,   rh => ∀ out, ∃ st, Client.invokeMethod rh out = .ok (st, notFound, out) ∧ st.rc ≠ 0
  | .setInstance,    rh => (Client.setInstance rh).rc ≠ 0
  | .deleteInstance, rh => (Client.deleteInstance rh).rc ≠ 0
  | .setProperty,    rh => (Client.setProperty rh).rc ≠ 0

-- Every operation decides by comparing the code with zero.
theorem Call.fails {rh : ResponseHdr} (he : rh.errCode ≠ 0) (call : Call) : call.Fails rh := by
  cases call with
  | enumerating op =>
    refine ⟨failed rh, ?_, he⟩
    cases op <;> exact if_pos he
  | getInstance | getClass => exact ⟨failed rh, if_pos he, he⟩
  | createInstance | getProperty => exact ⟨failed rh, if_pos he, he⟩
  | invokeMethod => exact fun out => ⟨failed rh, if_pos he, he⟩
  | setInstance | deleteInstance | setProperty =>
    have hs : (statusOnly rh).rc ≠ 0 := by
      rw [statusOnly, if_pos he]
      exact he
    exact hs

end Client

namespace Xml

def Tree.Message.error? : Message → Option XtokErrorResp
  | .method (.error e)  => some e
  | .iMethod (.error e) => some e
  | _                   => none

-- The error of a response is what the client reports.
structure Reported (rh : ResponseHdr) : Prop where
  code  : rh.errCode ≠ 0
  fails : ∀ call : Client.Call, call.Fails rh

-- A text that begins with a number that is not a multiple of 2 ^ 32, or one too large for `strtol`,
-- unless it is negative.
def Nonzero (code : Text) : Prop :=
  ∃ negative n, scanNumber code = some (negative, n) ∧
    if negative then n < 2 ^ 63 ∧ ¬ 2 ^ 32 ∣ n else 2 ^ 63 ≤ n ∨ ¬ 2 ^ 32 ∣ n

theorem ofInt_eq_zero_iff (n : ℤ) : Int32.ofInt n = 0 ↔ (2 ^ 32 : ℤ) ∣ n := by
  have h : (Int32.ofInt n).toInt = n.bmod (2 ^ 32) := Int32.toInt_ofInt
  rw [← Int32.toInt_inj, h]
  constructor
  · intro h
    exact Int.dvd_of_bmod_eq_zero h
  · intro h
    exact Int.bmod_eq_zero_of_dvd h

theorem strtoll_dvd_iff (negative : Bool) (n : ℕ) : (2 ^ 32 : ℤ) ∣ strtoll negative n ↔
    ¬ if negative then n < 2 ^ 63 ∧ ¬ 2 ^ 32 ∣ n else 2 ^ 63 ≤ n ∨ ¬ 2 ^ 32 ∣ n := by
  cases negative with
  | false =>
    have hs : strtoll false n = min (2 ^ 63 - 1) (n : ℤ) := rfl
    rw [hs, if_neg Bool.false_ne_true]
    omega
  | true  =>
    have hs : strtoll true n = max (-(2 ^ 63)) (-(n : ℤ)) := rfl
    rw [hs, if_pos rfl]
    omega

theorem atoi_ne_zero_iff (code : Text) : atoi code ≠ 0 ↔ Nonzero code := by
  rw [atoi, Nonzero]
  cases hs : scanNumber code with
  | none   => simp
  | some s =>
    have ha : Int32.ofInt (strtoll s.1 s.2) ≠ 0 ↔ _ :=
      (not_congr ((ofInt_eq_zero_iff _).trans (strtoll_dvd_iff s.1 s.2))).trans not_not
    rw [Option.elim_some, ha]
    constructor
    · intro h
      exact ⟨s.1, s.2, rfl, h⟩
    · intro h
      have ⟨negative, n, hn, hnz⟩ := h
      cases hn
      exact hnz

-- An error is reported if its code is a number other than zero. There is no response if the error has
-- no code, or no description.
theorem reported_iff_nonzero {req : Request} {ts : List Tok} {rh : ResponseHdr}
    (h : scanResponse req ts = .ok rh) :
    (∃ (m : Message) (ts' : _), ts = m.document ++ ts') ∧
    ∀ (m : Message) ts' e, ts = m.document ++ ts' → m.error? = some e →
      ∃ code, e.code = some code ∧ (Reported rh ↔ Nonzero code) := by
  have ⟨hb, hr⟩ := Grammar.scanResponse_accepted h
  refine ⟨hb, fun m ts' e ht he => ?_⟩
  have hm : ResponseHdr.setError {} e = .ok rh := by
    have hm := hr m ts' ht
    match m with
    | .method (.error e') | .iMethod (.error e') =>
      cases he
      exact hm
  have ⟨code, hc, hm⟩ := deref_bind hm
  have ⟨description, _, hm⟩ := deref_bind hm
  cases hm
  refine ⟨code, hc, ?_⟩
  rw [← atoi_ne_zero_iff]
  exact ⟨fun hr => hr.code, fun ha => ⟨ha, Client.Call.fails ha⟩⟩

-- The response to an operation that the server does not do.
def refusal (code : Text) : Message :=
  .iMethod (.error { code := some code, description := some [] })

theorem reported_iff_nonzero_seven :
    Reported { errCode := 7, description := some [] } ↔ Nonzero [55] := by
  have h : scanResponse { bytesOf := fun _ => [] } ((refusal [55]).document ++ []) =
      .ok { errCode := 7, description := some [] } := Grammar.scanResponse_document rfl []
  have ⟨code, hc, hr⟩ := (reported_iff_nonzero h).2 (refusal [55]) [] _ rfl rfl
  cases hc
  exact hr

-- A code that is not a number counts as success.
theorem not_reported_word : ¬ ∀ req ts rh, scanResponse req ts = .ok rh →
    ∀ (m : Message) ts' e, ts = m.document ++ ts' → m.error? = some e → Reported rh := by
  intro h
  have hs : scanResponse { bytesOf := fun _ => [] } ((refusal [88]).document ++ []) =
      .ok { errCode := 0, description := some [] } := Grammar.scanResponse_document rfl []
  exact (h _ _ _ hs (refusal [88]) [] _ rfl rfl).code rfl

end Xml
end Sfcc
