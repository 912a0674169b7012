import Sfcc.Exchange
import Sfcc.Theorems.Cmpi.Named
import Sfcc.Theorems.UtilStringBuffer
import Sfcc.Theorems.Xml.Documents

-- A client does what each of its exchanges says, whatever was done before and by others.
namespace Sfcc.Session

open Xml Requests UtilStringBuffer

variable {env : Environment} {con : CMCIConnection} {cld : CMCIClientData} {sb : UtilStringBuffer} {t : Text}

-- The strings of a client, which are far from the bounds of an `int` together.
structure CMCIClientData.Sound (cld : CMCIClientData) : Prop where
  hostName : 0 ∉ cld.hostName
  scheme   : 0 ∉ cld.scheme
  port     : 0 ∉ cld.port
  user     : ∀ u ∈ cld.user, 0 ∉ u
  pwd      : ∀ p ∈ cld.pwd, 0 ∉ p
  url      : cld.url.length < 2 ^ 30 - 2
  userpwd  : ∀ u ∈ cld.userpwd, u.length < 2 ^ 30 - 2

-- A connection whose buffers can be used. What the handle has for other requests is what it has for all.
structure Ready (con : CMCIConnection) (cld : CMCIClientData) : Prop where
  uri      : ∃ t, con.mUri.Holding t
  userPass : ∃ t, con.mUserPass.Holding t
  response : ∃ t, con.mResponse.Filled t
  user     : cld.user = none → con.mHandle.userpwd = none
  socket   : cld.port.head? ≠ some 47 → con.mHandle.socket = none

theorem defined_bind {α β : Type} {x : Except Undefined α} {a : α} (h : x = .ok a) (f : α → Except Fault β) :
    (defined x >>= f) = f a := by
  rw [h]
  rfl

theorem chars_holding (h : sb.Holding t) : CMCIConnection.chars sb = .ok t := by
  rw [CMCIConnection.chars, h.getCharPtr]
  rfl

theorem initConnection_ready (cld : CMCIClientData) : ∃ con, initConnection = .ok con ∧ Ready con cld := by
  have ⟨uri, hu, hu', _⟩ := newStringBuffer_holding (n := 256) (by decide) (by decide)
  have ⟨userPass, hp, hp', _⟩ := newStringBuffer_holding (n := 64) (by decide) (by decide)
  have ⟨response, hr, hr', _⟩ := newStringBuffer_holding (n := 2048) (by decide) (by decide)
  refine ⟨{ mUri := uri, mUserPass := userPass, mResponse := response }, ?_, ⟨[], hu'⟩, ⟨[], hp'⟩,
    ⟨[], hr'.toFilled⟩, fun _ => rfl, fun _ => rfl⟩
  rw [initConnection, hu, hp, hr]
  rfl

theorem call_holding (h : sb.Holding t) (c : Call) (hc : ∀ s, some s ∈ c.parts → 0 ∉ s)
    (hb : ∀ data size, c ≠ .appendBlock data size) (ht : (c.content t).length < 2 ^ 30 - 2) :
    ∃ sb', sb.call c = .ok sb' ∧ sb'.Holding (c.content t) :=
  h.call ⟨hc, fun data size he => absurd he (hb _ size)⟩ (by omega) fun _ => fits_small (by omega)

theorem setUri_ready (h : Ready con cld) (hs : cld.Sound) : ∃ mUri, con.setUri cld = .ok
      { con with mUri, mHandle := { con.mHandle with url := cld.url, socket := cld.socket } } ∧ ∃ t, mUri.Holding t := by
  obtain ⟨t, hu⟩ := h.uri
  obtain ⟨u₀, hr, hu₀⟩ := hu.reset
  have hlen := hs.url
  have h0 : 0 ∉ bytes "://" ∧ 0 ∉ bytes "/cimom" ∧ 0 ∉ ([58] : Text) := by decide
  rw [CMCIConnection.setUri, defined_bind hr]
  by_cases hp : cld.port.head? = some 47
  · have hurl : [] ++ (cld.scheme ++ (bytes "://" ++ cld.hostName)) ++ bytes "/cimom" = cld.url := by
      simp [CMCIClientData.url, hp]
    have hc₁ : (Call.append3Chars (some cld.scheme) (some (bytes "://")) (some cld.hostName)).content [] =
        [] ++ (cld.scheme ++ (bytes "://" ++ cld.hostName)) := by
      simp [Call.content]
    have hlen₁ : ([] ++ (cld.scheme ++ (bytes "://" ++ cld.hostName))).length < 2 ^ 30 - 2 := by
      rw [← hurl, List.length_append] at hlen
      omega
    obtain ⟨u₁, h₁, hu₁⟩ := call_holding hu₀ (.append3Chars (some cld.scheme) (some (bytes "://")) (some cld.hostName))
      (by simp [Call.parts, hs.scheme, hs.hostName, h0.left]) (by simp) (by rwa [hc₁])
    rw [hc₁] at hu₁
    obtain ⟨u₂, h₂, hu₂⟩ := call_holding hu₁ (.appendChars (some (bytes "/cimom"))) (by simp [Call.parts, h0.right.left]) (by simp)
      (by rw [Call.content, Option.getD_some, hurl]; exact hlen)
    rw [Call.content, Option.getD_some, hurl] at hu₂
    simp only [UtilStringBuffer.call] at h₁ h₂
    refine ⟨u₂, ?_, _, hu₂⟩
    rw [if_pos hp, defined_bind h₁, defined_bind h₂, chars_holding hu₂, CMCIClientData.socket, if_pos hp]
    rfl
  · have hc₁ : (Call.append6Chars (some cld.scheme) (some (bytes "://")) (some cld.hostName) (some [58]) (some cld.port)
        (some (bytes "/cimom"))).content [] = cld.url := by
      simp [Call.content, CMCIClientData.url, hp]
    obtain ⟨u₁, h₁, hu₁⟩ := call_holding hu₀ (.append6Chars (some cld.scheme) (some (bytes "://")) (some cld.hostName)
      (some [58]) (some cld.port) (some (bytes "/cimom")))
      (by simp [Call.parts, hs.scheme, hs.hostName, hs.port, h0.left, h0.right.left]) (by simp) (by rwa [hc₁])
    rw [hc₁] at hu₁
    simp only [UtilStringBuffer.call] at h₁
    refine ⟨u₁, ?_, _, hu₁⟩
    rw [if_neg hp, defined_bind h₁, chars_holding hu₁, CMCIClientData.socket, if_neg hp, ← h.socket hp]
    rfl

theorem setUserPass_ready (h : Ready con cld) (hs : cld.Sound) : ∃ mUserPass, con.setUserPass cld = .ok
      { con with mUserPass, mHandle := { con.mHandle with userpwd := cld.userpwd } } ∧ ∃ t, mUserPass.Holding t := by
  obtain ⟨t, hu⟩ := h.userPass
  cases hn : cld.user with
  | none      =>
    refine ⟨con.mUserPass, ?_, t, hu⟩
    have hw : cld.userpwd = con.mHandle.userpwd := by rw [CMCIClientData.userpwd, hn, h.user hn, Option.map_none]
    rw [CMCIConnection.setUserPass, hn, hw]
    rfl
  | some user =>
    obtain ⟨u₀, hr, hu₀⟩ := hu.reset
    have h0 : 0 ∉ user := hs.user user hn
    have hw : cld.userpwd = some (user ++ cld.pwd.elim [] (58 :: ·)) := by rw [CMCIClientData.userpwd, hn, Option.map_some]
    have hlen := hs.userpwd _ hw
    have hlen₁ : user.length < 2 ^ 30 - 2 := by
      rw [List.length_append] at hlen
      omega
    obtain ⟨u₁, h₁, hu₁⟩ := call_holding hu₀ (.appendChars (some user)) (by simpa [Call.parts] using h0) (by simp)
      (by simpa [Call.content] using hlen₁)
    rw [Call.content, Option.getD_some, List.nil_append] at hu₁
    simp only [UtilStringBuffer.call] at h₁
    rw [CMCIConnection.setUserPass, hn, hw]
    dsimp only
    rw [defined_bind hr, defined_bind h₁]
    cases hpwd : cld.pwd with
    | none     =>
      refine ⟨u₁, ?_, _, hu₁⟩
      dsimp only
      rw [pure_bind, chars_holding hu₁, Option.elim_none, List.append_nil]
      rfl
    | some pwd =>
      rw [hpwd, Option.elim_some] at hlen
      have hc : (Call.append3Chars (some [58]) (some pwd) none).content user = user ++ 58 :: pwd := by
        simp [Call.content]
      obtain ⟨u₂, h₂, hu₂⟩ := call_holding hu₁ (.append3Chars (some [58]) (some pwd) none)
        (by simpa [Call.parts] using hs.pwd pwd hpwd) (by simp) (by rwa [hc])
      rw [hc] at hu₂
      simp only [UtilStringBuffer.call] at h₂
      refine ⟨u₂, ?_, _, hu₂⟩
      dsimp only
      rw [defined_bind h₂, chars_holding hu₂]
      rfl

-- The parser starts with no token pushed back, and leaves none.

theorem lex_pushedBack {σ : Type} [Descent.Store Tok σ] {su su' : σ} {r r' : Descent.Reader Tok}
    (h : (Descent.lex su : Parse σ) r = .ok (su', r')) : r'.pushedBack = false := by
  rw [Descent.lex] at h
  split at h <;>
    (cases h
     rfl)

theorem element_pushedBack {σ υ : Type} [Descent.Store Tok σ] [Descent.Store Tok υ] {opening closing : Kind} {eo ec : String}
    {zero : υ} {content : σ × υ → Parse (σ × υ)} {su su' : σ} {r r' : Descent.Reader Tok}
    (h : Descent.element opening closing eo ec zero content su r = .ok (su', r')) : r'.pushedBack = false := by
  have ⟨p, _, h⟩ := Descent.bind_ok h
  rw [Descent.current_bind] at h
  split at h
  · have ⟨q, _, h⟩ := Descent.bind_ok h
    have ⟨l, hl, h⟩ := Descent.bind_ok h
    rw [Descent.current_bind] at h
    split at h
    · cases h
      exact lex_pushedBack hl
    · cases h
  · cases h

theorem start_current (req : Request) (rh : ResponseHdr) (ts : List Tok) (ct : Tok) :
    Grammar.start req rh ⟨ts, ct, false⟩ = Grammar.start req rh ⟨ts, .none, false⟩ :=
  rfl

theorem start_pushedBack {req : Request} {rh rh' : ResponseHdr} {r r' : Descent.Reader Tok}
    (h : Grammar.start req rh r = .ok (rh', r')) : r'.pushedBack = false := by
  have ⟨p, _, h⟩ := Descent.bind_ok h
  exact element_pushedBack h

theorem parse_eq (env : Environment) (s : State) (cop : CMPIObjectPath) (text : Text) (hs : s.dontLex = false) :
    (∃ e, scanResponse ⟨some cop, env.bytesOf⟩ (tokens text) = .error e ∧ s.parse env cop text = .error e) ∨
      ∃ rh ct, scanResponse ⟨some cop, env.bytesOf⟩ (tokens text) = .ok rh ∧
        s.parse env cop text = .ok (rh, { s with ct, dontLex := false }) := by
  rw [State.parse, hs, start_current, scanResponse]
  cases h : Grammar.start ⟨some cop, env.bytesOf⟩ {} ⟨tokens text, .none, false⟩ with
  | error e => exact .inl ⟨e, rfl, rfl⟩
  | ok r    =>
    refine .inr ⟨r.1, r.2.current, rfl, ?_⟩
    have hp := start_pushedBack h
    rw [← hp]
    rfl

-- What a connection has of an exchange.
structure Shows (con : CMCIConnection) (x : Exchange) : Prop where
  response : con.mResponse.Filled x.body
  status   : con.mStatus = x.status
  timer    : con.mTimeout = (timer (x.events.filterMap Event.call)).1

-- A request begins with nothing that older ones have left.
theorem genRequest_eq (h : Ready con cld) (hs : cld.Sound) (env : Environment) (op : Text) (cop : CMPIObjectPath)
    (classWithKeys : Bool) : ∃ mUri mUserPass mResponse,
      con.genRequest env cld op cop classWithKeys = (env.headersOf op cop classWithKeys).map (fun hs =>
        { mUri, mUserPass, mResponse,
          mHeaders := env.headers ++ hs
          mHandle  := { con.mHandle with
            url        := cld.url
            socket     := cld.socket
            userpwd    := cld.userpwd
            httpheader := env.headers ++ hs } }) ∧
      (∃ t, mUri.Holding t) ∧ (∃ t, mUserPass.Holding t) ∧ mResponse.Filled [] := by
  have ⟨t, ht⟩ := h.response
  have ⟨mResponse, hr, hr'⟩ := ht.reset
  have h₁ : Ready { con with mResponse } cld := ⟨h.uri, h.userPass, ⟨_, hr'⟩, h.user, h.socket⟩
  have ⟨mUri, hu, hu'⟩ := setUri_ready h₁ hs
  have h₂ : Ready { con with
      mResponse, mUri
      mTimeout := {}
      mHandle  := { con.mHandle with url := cld.url, socket := cld.socket } } cld :=
    ⟨hu', h.userPass, ⟨_, hr'⟩, h.user, fun hp => if_neg hp⟩
  have ⟨mUserPass, hp, hp'⟩ := setUserPass_ready h₂ hs
  refine ⟨mUri, mUserPass, mResponse, ?_, hu', hp', hr'⟩
  rw [CMCIConnection.genRequest, defined_bind hr]
  dsimp only
  rw [hu]
  show (CMCIConnection.setUserPass _ cld >>= _) = _
  rw [hp]
  show (env.headersOf op cop classWithKeys >>= _) = _
  cases env.headersOf op cop classWithKeys with
  | error e => rfl
  | ok hs   => rfl

theorem timer_append (calls : List Progress) (p : Progress) : timer (calls ++ [p]) =
    (((timer calls).1.checkProgress p).2, decide (((timer calls).1.checkProgress p).1 ≠ 0)) :=
  List.foldl_append

theorem callback_shows {x : Exchange} (h : Ready con cld) (hs : Shows con x) (e : Event) (ha : x.aborted = false)
    (hl : (x.body ++ e.data).length < 2 ^ 30 - 2) : ∃ con', con.callback e =
        .ok (con', ({ x with events := x.events ++ [e] } : Exchange).aborted) ∧
      Ready con' cld ∧ Shows con' { x with events := x.events ++ [e] } := by
  cases e with
  | header line =>
    have hc : (x.events ++ [Event.header line]).filterMap Event.call = x.events.filterMap Event.call := by
      simp [Event.call]
    refine ⟨{ con with mStatus := writeHeaders con.mStatus line }, ?_,
      ⟨h.uri, h.userPass, h.response, h.user, h.socket⟩, ?_, ?_, ?_⟩
    · rw [Exchange.aborted, hc, ← Exchange.aborted, ha]
      rfl
    · simpa [Exchange.body, Event.data] using hs.response
    · simp [Exchange.status, Event.line, hs.status]
    · rw [hc]
      exact hs.timer
  | block data  =>
    have hc : (x.events ++ [Event.block data]).filterMap Event.call = x.events.filterMap Event.call := by
      simp [Event.call]
    have hline : (x.events ++ [Event.block data]).filterMap Event.line = x.events.filterMap Event.line := by
      simp [Event.line]
    have ⟨mResponse, hr, hr'⟩ := hs.response.appendWhole hl
    refine ⟨{ con with mResponse }, ?_, ⟨h.uri, h.userPass, ⟨_, hr'⟩, h.user, h.socket⟩, ?_, ?_, ?_⟩
    · rw [Exchange.aborted, hc, ← Exchange.aborted, ha, CMCIConnection.callback, CMCIConnection.writeCb]
      show (defined (con.mResponse.appendBlock (some data) (data.length % 2 ^ 32)) >>= _) >>= _ = _
      rw [show con.mResponse.appendBlock (some data) (data.length % 2 ^ 32) = _ from hr]
      rfl
    · simpa [Exchange.body, Event.data] using hr'
    · rw [Exchange.status, hline]
      exact hs.status
    · rw [hc]
      exact hs.timer
  | progress p  =>
    have hc : (x.events ++ [Event.progress p]).filterMap Event.call = x.events.filterMap Event.call ++ [p] := by
      simp [Event.call]
    have hline : (x.events ++ [Event.progress p]).filterMap Event.line = x.events.filterMap Event.line := by
      simp [Event.line]
    refine ⟨{ con with mTimeout := (con.mTimeout.checkProgress p).2 }, ?_,
      ⟨h.uri, h.userPass, h.response, h.user, h.socket⟩, ?_, ?_, ?_⟩
    · rw [Exchange.aborted, hc, timer_append, ← hs.timer]
      rfl
    · simpa [Exchange.body, Event.data] using hs.response
    · rw [Exchange.status, hline]
      exact hs.status
    · rw [hc, timer_append, ← hs.timer]

theorem getResponse_eq {x : Exchange} (hs : Shows con x) (rv : ℕ) (responseCode : ℤ) :
    con.getResponse env.strerror (if x.aborted then CURLE_ABORTED_BY_CALLBACK else rv) responseCode =
      x.error env rv responseCode := by
  have hsize : con.mResponse.getSize = 0 ↔ x.body = [] := by
    rw [hs.response.getSize, Int.natCast_eq_zero, List.length_eq_zero_iff]
  rw [CMCIConnection.getResponse, Exchange.error]
  cases ha : x.aborted with
  | true  =>
    rfl
  | false =>
    by_cases hrv : rv = CURLE_ABORTED_BY_CALLBACK
    · subst hrv
      rfl
    · simp only [Bool.false_eq_true, if_false, if_neg hrv, false_or, hsize]

-- What is returned depends on the exchange alone.
theorem finish_eq (env : Environment) {x : Exchange} {s : State} (hs : Shows con x) (hd : s.dontLex = false) (rv : ℕ) (responseCode : ℤ) :
    (∃ e, x.answer env rv responseCode = .error e ∧
      s.finish env con ⟨x.op, x.cop, x.out, x.aborted⟩ rv responseCode = .error e) ∨
    ∃ r s', x.answer env rv responseCode = .ok r ∧
      s.finish env con ⟨x.op, x.cop, x.out, x.aborted⟩ rv responseCode = .ok (s', .reply r) ∧
      s'.clients = s.clients ∧ s'.dontLex = false := by
  rw [State.finish, getResponse_eq hs, Exchange.answer]
  cases x.error env rv responseCode with
  | some error => exact .inr ⟨_, s, rfl, rfl, rfl, hd⟩
  | none       =>
    dsimp only
    rw [hs.status]
    by_cases hrc : x.status.rc ≠ 0
    · rw [if_pos hrc, if_pos hrc]
      exact .inr ⟨_, s, rfl, rfl, rfl, hd⟩
    · rw [if_neg hrc, if_neg hrc]
      have hc : CMCIConnection.chars con.mResponse = .ok (x.body.takeWhile (· ≠ 0)) := by
        rw [CMCIConnection.chars, hs.response.getCharPtr]
        rfl
      rw [hc]
      rcases parse_eq env s x.cop (x.body.takeWhile (· ≠ 0)) hd with ⟨e, he, hp⟩ | ⟨rh, ct, hr, hp⟩
      · refine .inl ⟨e, ?_, ?_⟩
        · rw [Exchange.response, he]
          rfl
        · show (s.parse env x.cop (x.body.takeWhile (· ≠ 0)) >>= _) = _
          rw [hp]
          rfl
      · have hp' : (s.parse env x.cop (x.body.takeWhile (· ≠ 0)) >>= fun r => fault (x.op.received x.out r.1) >>= fun result =>
            pure (r.2, Output.reply result)) = fault (x.op.received x.out rh) >>= fun result =>
              pure ({ s with ct, dontLex := false }, Output.reply result) := by
          rw [hp]
          rfl
        have hr' : (x.response env >>= fun rh => fault (x.op.received x.out rh)) = fault (x.op.received x.out rh) := by
          rw [Exchange.response, hr]
          rfl
        rw [hr']
        cases hx : fault (x.op.received x.out rh) with
        | error e =>
          rw [hx] at hp'
          exact .inl ⟨e, rfl, hp'⟩
        | ok r    =>
          rw [hx] at hp'
          exact .inr ⟨r, _, rfl, hp', rfl, rfl⟩

-- A client and its exchange.
inductive Tracks (con : CMCIConnection) : Option Pending → Option Exchange → Prop
  | idle : Tracks con none none
  | busy {x : Exchange} : Shows con x → Tracks con (some ⟨x.op, x.cop, x.out, x.aborted⟩) (some x)

structure Plays (c : Client) (r : CMCIClientData × Option Exchange) : Prop where
  data   : c.data = r.1
  sound  : c.data.Sound
  ready  : Ready c.connection c.data
  tracks : Tracks c.connection c.pending r.2

structure Related (s : State) (t : Exchanges) : Prop where
  clients : List.Forall₂ Plays s.clients t
  clean   : s.dontLex = false

-- The strings that are given to a client are short enough, and so are the responses.
def Bounded (t : Exchanges) : Action → Prop
  | .connect hn scheme port user pwd => (xmlConnect2 hn scheme port user pwd).Sound
  | .event i e                       => ∀ data x, t[i]? = some (data, some x) → (x.body ++ e.data).length < 2 ^ 30 - 2
  | _                                => True

-- Two lists of related parts, one of which is exchanged.
theorem forall₂_at {α β : Type} {R : α → β → Prop} {l : List α} {l' : List β} (h : List.Forall₂ R l l') (i : ℕ) :
    l[i]? = none ∧ l'[i]? = none ∨ ∃ a b, l[i]? = some a ∧ l'[i]? = some b ∧ R a b ∧
      ∀ a' b', R a' b' → List.Forall₂ R (l.set i a') (l'.set i b') := by
  induction h generalizing i with
  | nil          => exact .inl ⟨rfl, rfl⟩
  | cons hr h hi =>
    cases i with
    | zero   => exact .inr ⟨_, _, rfl, rfl, hr, fun _ _ hr' => .cons hr' h⟩
    | succ i =>
      rcases hi i with hn | ⟨a, b, ha, hb, hab, hset⟩
      · exact .inl hn
      · exact .inr ⟨a, b, ha, hb, hab, fun _ _ hr' => .cons hr (hset _ _ hr')⟩

-- How an operation begins.
theorem request_matches (env : Environment) (h : Ready con cld) (hs : cld.Sound) (op : Operation) (cop : CMPIObjectPath)
    (out : Option CMPIArgs) (rv : ℕ) : Machine.Matches (fun c x => Plays c (cld, x))
      (fault (Client.request ⟨cld, con, none⟩ env op cop out rv)) (fault (cld.request env op cop out rv)) := by
  rw [Client.request, CMCIClientData.request]
  cases deref op.method with
  | error e => exact .error _
  | ok m    =>
    have ⟨mUri, mUserPass, mResponse, hg, hu, hp, hr⟩ := genRequest_eq h hs env m cop op.classWithKeys
    show Machine.Matches _ (fault (con.genRequest env cld m cop op.classWithKeys >>= _))
      (fault (env.headersOf m cop op.classWithKeys >>= _))
    rw [hg]
    cases env.headersOf m cop op.classWithKeys with
    | error e => exact .error _
    | ok hs'  =>
      have hready (pl : Text) : Ready { mUri, mUserPass, mResponse, mHeaders := env.headers ++ hs', mHandle := {
          url := cld.url, socket := cld.socket, userpwd := cld.userpwd, httpheader := env.headers ++ hs',
          postfields := pl } } cld := by
        refine ⟨hu, hp, ⟨_, hr⟩, fun hn => ?_, fun hn => if_neg hn⟩
        show cld.userpwd = none
        rw [CMCIClientData.userpwd, hn, Option.map_none]
      show Machine.Matches _ (fault (op.body env.printg cop >>= _)) (fault (op.body env.printg cop >>= _))
      cases op.body env.printg cop with
      | error e => exact .error _
      | ok o    =>
        cases o with
        | none      => exact .ok ⟨rfl, hs, hready _, .idle⟩
        | some body =>
          by_cases hrv : rv ≠ 0
          · show Machine.Matches _ (fault (if rv ≠ 0 then _ else _)) (fault (if rv ≠ 0 then _ else _))
            rw [if_pos hrv, if_pos hrv]
            exact .ok ⟨rfl, hs, hready _, .idle⟩
          · show Machine.Matches _ (fault (if rv ≠ 0 then _ else _)) (fault (if rv ≠ 0 then _ else _))
            rw [if_neg hrv, if_neg hrv]
            exact .ok ⟨rfl, hs, hready body, .busy (x := { op, cop, out }) ⟨hr, rfl, rfl⟩⟩

theorem set_same {α : Type} {l : List α} {i : ℕ} {a : α} (h : l[i]? = some a) : l.set i a = l := by
  have ⟨hl, he⟩ := List.getElem?_eq_some_iff.mp h
  rw [← he, List.set_getElem_self]

theorem step_matches {s : State} {t : Exchanges} {a : Action} (h : Related s t) (hb : Bounded t a) :
    Machine.Matches Related (s.step env a) (t.step env a) := by
  cases a with
  | connect hn scheme port user pwd =>
    obtain ⟨con, hc, hr⟩ := initConnection_ready (xmlConnect2 hn scheme port user pwd)
    rw [State.step, hc]
    refine .ok ⟨?_, h.clean⟩
    exact List.rel_append h.clients (.cons ⟨rfl, hb, hr, .idle⟩ .nil)
  | request i op cop out rv         =>
    rw [State.step, Exchanges.step]
    rcases forall₂_at h.clients i with ⟨hs, ht⟩ | ⟨⟨cld, con, pending⟩, ⟨_, x⟩, hs, ht, ⟨rfl, hsound, hready, htracks⟩, hset⟩
    · rw [hs, ht]
      exact .ok h
    · rw [hs, ht]
      cases htracks with
      | busy _ => exact .ok h
      | idle   =>
        refine (request_matches env hready hsound op cop out rv).bind ?_
        intro c x o hp
        exact .ok ⟨hset _ _ hp, h.clean⟩
  | event i e                       =>
    rw [State.step, Exchanges.step]
    rcases forall₂_at h.clients i with ⟨hs, ht⟩ | ⟨⟨cld, con, pending⟩, ⟨_, x⟩, hs, ht, ⟨rfl, hsound, hready, htracks⟩, hset⟩
    · rw [hs, ht]
      exact .ok h
    · rw [hs, ht]
      cases htracks with
      | idle              =>
        have hset' := hset ⟨cld, con, none⟩ (cld, none) ⟨rfl, hsound, hready, .idle⟩
        rw [set_same ht] at hset'
        exact .ok ⟨hset', h.clean⟩
      | @busy x hx =>
        cases ha : x.aborted with
        | true  =>
          have hset' := hset ⟨cld, con, some ⟨x.op, x.cop, x.out, x.aborted⟩⟩ (cld, some x) ⟨rfl, hsound, hready, .busy hx⟩
          rw [set_same ht, ha] at hset'
          have hr : Related { s with clients := s.clients.set i ⟨cld, con, some ⟨x.op, x.cop, x.out, true⟩⟩ } t := ⟨hset', h.clean⟩
          dsimp only
          rw [ha, if_pos rfl]
          exact .ok hr
        | false =>
          obtain ⟨con', hc, hready', hx'⟩ := callback_shows hready hx e ha (hb _ _ ht)
          have he : Client.event ⟨cld, con, some ⟨x.op, x.cop, x.out, false⟩⟩ e =
              .ok ⟨cld, con', some ⟨x.op, x.cop, x.out, ({ x with events := x.events ++ [e] } : Exchange).aborted⟩⟩ := by
            show (con.callback e >>= _) = _
            rw [hc]
            rfl
          dsimp only
          rw [he, ha]
          exact .ok ⟨hset _ _ ⟨rfl, hsound, hready', .busy hx'⟩, h.clean⟩
  | finish i rv responseCode        =>
    rw [State.step, Exchanges.step]
    rcases forall₂_at h.clients i with ⟨hs, ht⟩ | ⟨⟨cld, con, pending⟩, ⟨_, x⟩, hs, ht, ⟨rfl, hsound, hready, htracks⟩, hset⟩
    · rw [hs, ht]
      exact .ok h
    · rw [hs, ht]
      cases htracks with
      | idle    => exact .ok h
      | busy hx =>
        rcases finish_eq env hx h.clean rv responseCode with ⟨e, ha, hf⟩ | ⟨r, s', ha, hf, hcl, hd⟩
        · dsimp only
          rw [ha, hf]
          exact .error e
        · dsimp only
          rw [ha, hf]
          refine .ok ⟨?_, hd⟩
          show List.Forall₂ Plays (s'.clients.set i _) _
          rw [hcl]
          exact hset _ _ ⟨rfl, hsound, hready, .idle⟩

-- In any order of steps of any number of clients, each request and each result is what its exchange says.
theorem run_exchanges (env : Environment) {as : List Action} (h : (exchanges env).Admits Bounded [] as) :
    (machine env).outputs as = (exchanges env).outputs as :=
  Machine.Simulates.outputs ⟨⟨.nil, rfl⟩, step_matches⟩ h

def plainEnvironment : Environment where
  printg   := id
  strerror := fun _ => bytes "error"
  bytesOf  := fun _ => []
  chunking := false

-- A client lists classes while another one loses its connection.
def listing : List Action := [
  .connect none none none none none,
  .connect none none none none none,
  .request 0 (.enumClassNames 0) { classname := some (bytes "A") } none 0,
  .request 1 .deleteInstance { classname := some (bytes "B") } none 0,
  .event 0 (.header (bytes "Content-type: application/xml")),
  .event 0 (.block (Xml.note.take 40)),
  .event 1 (.block (bytes "<?xml")),
  .event 0 (.progress ⟨200, 40, 1⟩),
  .event 0 (.block (Xml.note.drop 40 ++ bytes "</CIM>")),
  .finish 1 28 200,
  .finish 0 0 200
]

theorem sound_default : (xmlConnect2 none none none none none).Sound where
  hostName := by decide
  scheme   := by decide
  port     := by decide
  user     := by rintro _ ⟨⟩
  pwd      := by rintro _ ⟨⟩
  url      := by decide
  userpwd  := by rintro _ ⟨⟩

theorem run_exchanges_listing : (machine plainEnvironment).outputs listing = (exchanges plainEnvironment).outputs listing := by
  apply run_exchanges plainEnvironment
  refine .cons sound_default rfl (.cons sound_default rfl ?_)
  refine .cons trivial rfl (.cons trivial rfl ?_)
  refine .cons ?_ rfl (.cons ?_ rfl (.cons ?_ rfl (.cons ?_ rfl (.cons ?_ rfl ?_))))
  case refine_6 => exact .cons trivial rfl ⟨trivial, fun _ _ _ => trivial⟩
  all_goals
    rintro _ _ ⟨⟩
    decide +kernel

-- The status that an operation returns.
def Result.st : Result → CMPIStatus
  | .status st        => st
  | .pointer st _     => st
  | .data st _        => st
  | .method st _ _    => st
  | .enumeration st _ => st

theorem failed_st (op : Operation) (out : Option CMPIArgs) (st : CMPIStatus) : (op.failed out st).st = st := by
  cases op <;> rfl

theorem statusOnly_rc (rh : ResponseHdr) : (Client.statusOnly rh).rc = 0 ↔ rh.errCode = 0 := by
  rw [Client.statusOnly]
  split
  case isTrue he  => rfl
  case isFalse he => exact ⟨fun _ => not_not.mp he, fun _ => rfl⟩

theorem enumeration_rc (rh : ResponseHdr) : (Client.enumeration rh).1.rc = 0 ↔ rh.errCode = 0 := by
  rw [Client.enumeration]
  split
  case isTrue he  => rfl
  case isFalse he => exact ⟨fun _ => not_not.mp he, fun _ => rfl⟩

theorem createInstance_rc (rh : ResponseHdr) : (Client.createInstance rh).1.rc = 0 ↔ rh.errCode = 0 := by
  rw [Client.createInstance]
  split
  case isTrue he  => rfl
  case isFalse he => exact ⟨fun _ => not_not.mp he, fun _ => rfl⟩

theorem getProperty_rc (rh : ResponseHdr) : (Client.getProperty rh).1.rc = 0 ↔ rh.errCode = 0 := by
  rw [Client.getProperty]
  split
  case isTrue he  => rfl
  case isFalse he => exact ⟨fun _ => not_not.mp he, fun _ => rfl⟩

theorem cloneFirst_rc {rh : ResponseHdr} {r : CMPIStatus × CMPIValue} (h : Client.cloneFirst rh = .ok r) :
    r.1.rc = 0 ↔ rh.errCode = 0 := by
  rw [Client.cloneFirst] at h
  split at h
  case isTrue he  =>
    cases h
    rfl
  case isFalse he =>
    have ⟨_, _, h⟩ := ok_bind.mp h
    cases h
    exact ⟨fun _ => not_not.mp he, fun _ => rfl⟩

theorem invokeMethod_rc {rh : ResponseHdr} {out : Option CMPIArgs} {r : CMPIStatus × CMPIData × Option CMPIArgs}
    (h : Client.invokeMethod rh out = .ok r) : r.1.rc = 0 ↔ rh.errCode = 0 := by
  rw [Client.invokeMethod] at h
  split at h
  case isTrue he  =>
    cases h
    rfl
  case isFalse he =>
    split at h <;>
      (have ⟨_, _, h⟩ := ok_bind.mp h
       cases h
       exact ⟨fun _ => not_not.mp he, fun _ => rfl⟩)

-- A response with an error makes each operation fail, and one without it does not.
theorem received_st {op : Operation} {out : Option CMPIArgs} {rh : ResponseHdr} {r : Result} (h : op.received out rh = .ok r) :
    r.st.rc = 0 ↔ rh.errCode = 0 := by
  cases op with
  | getInstance | getClass =>
    have ⟨p, hp, h⟩ := ok_bind.mp h
    cases h
    exact cloneFirst_rc hp
  | invokeMethod =>
    have ⟨p, hp, h⟩ := ok_bind.mp h
    cases h
    exact invokeMethod_rc hp
  | createInstance =>
    cases h
    exact createInstance_rc rh
  | getProperty =>
    cases h
    exact getProperty_rc rh
  | setInstance | deleteInstance | setProperty =>
    cases h
    exact statusOnly_rc rh
  | enumInstanceNames | execQuery | enumInstances | associators | associatorNames | references | referenceNames
  | enumClassNames | enumClasses =>
    cases h
    exact enumeration_rc rh

theorem error_eq_none_iff {x : Exchange} {rv : ℕ} {responseCode : ℤ} :
    x.error env rv responseCode = none ↔ x.aborted = false ∧ rv = 0 ∧ x.body ≠ [] := by
  rw [Exchange.error]
  cases x.aborted <;> by_cases hrv : rv = 0 <;> by_cases hb : x.body = [] <;> simp [hrv, hb]

-- Success is reported when the transfer came to its end, the server reported no error in a header, and
-- there is a response without an error. Otherwise a failure is.
theorem answer_succeeds_iff {x : Exchange} {rv : ℕ} {responseCode : ℤ} {r : Result} (h : x.answer env rv responseCode = .ok r) :
    r.st.rc = 0 ↔ x.aborted = false ∧ rv = 0 ∧ x.body ≠ [] ∧ x.status.rc = 0 ∧
      ∃ rh, x.response env = .ok rh ∧ rh.errCode = 0 := by
  rw [Exchange.answer] at h
  cases he : x.error env rv responseCode with
  | some error =>
    rw [he] at h
    cases h
    rw [failed_st]
    refine ⟨fun hz => absurd hz (by decide : CMPI_RC_ERR_FAILED ≠ 0), fun ⟨ha, hrv, hb, _⟩ => ?_⟩
    cases he.symm.trans (error_eq_none_iff.mpr ⟨ha, hrv, hb⟩)
  | none       =>
    have ⟨ha, hrv, hb⟩ := error_eq_none_iff.mp he
    rw [he] at h
    dsimp only at h
    split at h
    case isTrue hs  =>
      cases h
      rw [failed_st]
      exact ⟨fun hz => absurd hz hs, fun ⟨_, _, _, hz, _⟩ => absurd hz hs⟩
    case isFalse hs =>
      cases hx : x.response env with
      | error e =>
        rw [hx] at h
        cases h
      | ok rh   =>
        rw [hx] at h
        cases hr : x.op.received x.out rh with
        | error f =>
          have h : fault (x.op.received x.out rh) = .ok r := h
          rw [hr] at h
          cases h
        | ok r'   =>
          have h : fault (x.op.received x.out rh) = .ok r := h
          rw [hr] at h
          cases h
          rw [received_st hr]
          refine ⟨fun hz => ⟨ha, hrv, hb, not_not.mp hs, rh, rfl, hz⟩, fun ⟨_, _, _, _, rh', hrh, hz⟩ => ?_⟩
          cases hrh
          exact hz

-- An answer that is received in three blocks.
def classNames : Exchange where
  op     := .enumClassNames 0
  cop    := {}
  out    := none
  events := [.header (bytes "Content-type: application/xml"), .block (Xml.note.take 40), .progress ⟨200, 40, 1⟩,
    .block (Xml.note.drop 40), .block (bytes "</CIM>")]

theorem answer_succeeds_iff_classNames : ∃ r, classNames.answer plainEnvironment 0 200 = .ok r ∧
    (r.st.rc = 0 ↔ classNames.aborted = false ∧ 0 = 0 ∧ classNames.body ≠ [] ∧ classNames.status.rc = 0 ∧
      ∃ rh, classNames.response plainEnvironment = .ok rh ∧ rh.errCode = 0) := by
  have ha : (classNames.answer plainEnvironment 0 200).isOk := by decide +kernel
  cases h : classNames.answer plainEnvironment 0 200 with
  | error e =>
    rw [h] at ha
    cases ha
  | ok r    => exact ⟨r, rfl, answer_succeeds_iff h⟩

end Sfcc.Session
