import Memcarrot.Authorization.Credentials
import Memcarrot.Transition.Runs

open Function Transition

namespace Memcarrot.AuthorizationHandler

/-- The address that stands for a channel: its own, or for a loopback connection the one in the
PROXY header that is read on it. -/
def addressOf (remote : RemoteAddress) (call : ChannelCall) : Option Text :=
  if remote.isLoopbackAddress then (findRemoteIp remote call).1.toOption
  else some remote.hostString

/-- The host of the channel is authorized, or logs in with the call. -/
def Admits (conf : AuthorizationConf) (remote : RemoteAddress) (call : ChannelCall) : Prop :=
  ∃ ip, addressOf remote call = some ip ∧ (call.authHosts ip = true ∨
    ∃ next, findRemoteIp remote call = (.ok ip, next) ∧ SendsCredentials conf next.reads)

/-- The message that is sent when the block is left so. -/
def errorMsg : Leave → Option String
  | .returns _ => none
  | .refuses errorMsg => some errorMsg
  | .ioException => some REQUIRED

/-- The message for a host that has not logged in with what is read. -/
def loginRefusal (conf : AuthorizationConf) (reads : List ChannelRead) : String :=
  if sendsSet reads then
    if conf.userLoginName.isSome ∧ conf.userPasswordSHA256.isSome then FAILED else NOT_CONFIGURED
  else REQUIRED

/-- The message for a host that is not authorized and does not log in. -/
def refusal (conf : AuthorizationConf) (remote : RemoteAddress) (call : ChannelCall) : String :=
  match findRemoteIp remote call with
  | (.ok _, next) => loginRefusal conf next.reads
  | (.error _, _) => REQUIRED

/-- A write throws before the string is written. -/
def WriteFails (data : String) (writes : List Attempt) : Prop :=
  Attempt.Break (Text.getBytes data.toList).length writes

/-- A string is written unless one of its writes throws. -/
theorem writeString_cases (data : String) (call : ChannelCall) :
    (WriteFails data call.writes ∧ ∃ writes written,
        call.writeString data = (false, { call with writes, written })) ∨
      (¬ WriteFails data call.writes ∧ ∃ writes,
        call.writeString data = (true, { call with
          writes, written := call.written ++ Text.getBytes data.toList })) := by
  unfold ChannelCall.writeString
  rcases Attempt.writeAll_cases (Text.getBytes data.toList) call.writes with
    ⟨hfails, taken, left, hwrite⟩ | ⟨hfails, left, -, hwrite⟩
  · exact .inl ⟨hfails, left, call.written ++ taken, by rw [hwrite]⟩
  · exact .inr ⟨hfails, left, by rw [hwrite]⟩

section Attempt

variable {conf : AuthorizationConf} {remote : RemoteAddress} {call next final : ChannelCall}
  {remoteIp username password ip : Text} {noreply : Bool} {leave : Leave}

/-- A channel that is left as it is but for what is read on it. -/
structure Reads (call next : ChannelCall) : Prop where
  writes : next.writes = call.writes
  isOpen : next.isOpen = call.isOpen
  authHosts : next.authHosts = call.authHosts

theorem Reads.refl (call : ChannelCall) : Reads call call := ⟨rfl, rfl, rfl⟩

/-- A host has logged in, and STORED was written, need not be written or could not. -/
structure LogsIn (remoteIp : Text) (call : ChannelCall) (leave : Leave) (next : ChannelCall) :
    Prop where
  authHosts : next.authHosts = update call.authHosts remoteIp true
  isOpen : next.isOpen = call.isOpen
  remoteIp_eq : next.remoteIp = call.remoteIp
  leave : leave = .returns true ∨ leave = .ioException

/-- A host is refused with a message: nothing has been written to the channel by then. -/
structure Refuses (call : ChannelCall) (msg : String) (leave : Leave) (next : ChannelCall) :
    Prop where
  reads : Reads call next
  remoteIp_eq : next.remoteIp = call.remoteIp
  leave : errorMsg leave = some msg

theorem verify_cases (h : verify conf remoteIp username password noreply call = (leave, next)) :
    (conf.userLoginName = some username ∧
        conf.userPasswordSHA256 = some (conf.hashUtil.hashString password) ∧
        LogsIn remoteIp call leave next) ∨
      (¬ (conf.userLoginName = some username ∧
          conf.userPasswordSHA256 = some (conf.hashUtil.hashString password)) ∧
        Refuses call (if conf.userLoginName.isSome ∧ conf.userPasswordSHA256.isSome then FAILED
          else NOT_CONFIGURED) leave next) := by
  unfold verify at h
  cases hlogin : conf.userLoginName with
  | none =>
    simp only [hlogin] at h
    obtain ⟨rfl, rfl⟩ := Prod.mk.inj h
    exact .inr ⟨by simp, .refl _, rfl, by simp [errorMsg]⟩
  | some loginName =>
    cases hhash : conf.userPasswordSHA256 with
    | none =>
      simp only [hlogin, hhash] at h
      obtain ⟨rfl, rfl⟩ := Prod.mk.inj h
      exact .inr ⟨by simp, .refl _, rfl, by simp [errorMsg]⟩
    | some hashedPassword =>
      simp only [hlogin, hhash] at h
      split_ifs at h with hvalid hnoreply
      · obtain ⟨rfl, rfl⟩ := Prod.mk.inj h
        exact .inl ⟨by rw [hvalid.1], by rw [hvalid.2], rfl, rfl, rfl, .inl rfl⟩
      · refine .inl ⟨by rw [hvalid.1], by rw [hvalid.2], ?_⟩
        rcases writeString_cases "STORED\r\n"
          { call with authHosts := update call.authHosts remoteIp true } with
          ⟨-, writes, written, hwrite⟩ | ⟨-, writes, hwrite⟩
        · rw [hwrite] at h
          obtain ⟨rfl, rfl⟩ := Prod.mk.inj h
          exact ⟨rfl, rfl, rfl, .inr rfl⟩
        · rw [hwrite] at h
          obtain ⟨rfl, rfl⟩ := Prod.mk.inj h
          exact ⟨rfl, rfl, rfl, .inl rfl⟩
      · obtain ⟨rfl, rfl⟩ := Prod.mk.inj h
        refine .inr ⟨?_, .refl _, rfl, by simp [errorMsg]⟩
        rintro ⟨hname, hpassword⟩
        exact hvalid ⟨(Option.some.inj hname).symm, (Option.some.inj hpassword).symm⟩

theorem Refuses.of_eq {leave' : Leave} {rest : List ChannelRead} {msg : String}
    (hleave : errorMsg leave = some msg)
    (h : (leave, { call with reads := rest }) = (leave', next)) :
    Refuses call msg leave' next := by
  obtain ⟨rfl, rfl⟩ := Prod.mk.inj h
  exact ⟨⟨rfl, rfl, rfl⟩, rfl, hleave⟩

theorem not_sendsCredentials {reads : List ChannelRead}
    (h : ∀ text, (readLine reads).1 ≠ .line text) : ¬ SendsCredentials conf reads := by
  rintro ⟨commandLine, rest, -, hline, -⟩
  exact h commandLine (congrArg Prod.fst hline)

theorem sendsCredentials_iff {reads rest : List ChannelRead} {commandLine : Text}
    (h : readLine reads = (.line commandLine, rest)) :
    SendsCredentials conf reads ↔ ∃ password, (readLine rest).1 = .line password ∧
      commandLine.startsWith "set ".toList = true ∧ 5 ≤ commandLine.split.length ∧
      conf.userLoginName = some (commandLine.split.getD 1 []) ∧
      conf.userPasswordSHA256 = some (conf.hashUtil.hashString password) := by
  constructor
  · rintro ⟨line, left, password, hline, hpassword⟩
    rw [h] at hline
    obtain ⟨hsame, rfl⟩ := Prod.mk.inj hline
    obtain rfl := LineRead.line.inj hsame
    exact ⟨password, hpassword⟩
  · rintro ⟨password, hpassword⟩
    exact ⟨commandLine, rest, password, h, hpassword⟩

theorem sendsSet_eq {reads rest : List ChannelRead} {commandLine : Text}
    (h : readLine reads = (.line commandLine, rest)) :
    sendsSet reads = (commandLine.startsWith "set ".toList &&
      decide (5 ≤ commandLine.split.length) && (readLine rest).1.isLine) := by
  simp only [sendsSet, h]

theorem login_cases (h : login conf remoteIp call = (leave, next)) :
    (SendsCredentials conf call.reads ∧ LogsIn remoteIp call leave next) ∨
      (¬ SendsCredentials conf call.reads ∧
        Refuses call (loginRefusal conf call.reads) leave next) := by
  unfold login ChannelCall.readLine at h
  obtain ⟨line, rest, hread⟩ : ∃ line rest, readLine call.reads = (line, rest) := ⟨_, _, rfl⟩
  cases line with
  | ioException | null =>
    simp only [hread] at h
    have hmsg : loginRefusal conf call.reads = REQUIRED := by simp [loginRefusal, sendsSet, hread]
    exact .inr ⟨not_sendsCredentials (by simp [hread]), hmsg ▸ .of_eq rfl h⟩
  | line commandLine =>
    simp only [hread] at h
    rw [sendsCredentials_iff hread, loginRefusal, sendsSet_eq hread]
    split_ifs at h with hset hshort
    · refine .inr ⟨?_, .of_eq ?_ h⟩
      · rintro ⟨-, -, -, hlong, -⟩
        omega
      · have hfew : ¬ 5 ≤ commandLine.split.length := by omega
        simp [errorMsg, hfew]
    · have hlong : 5 ≤ commandLine.split.length := by omega
      obtain ⟨password, rest', hread'⟩ : ∃ line rest', readLine rest = (line, rest') := ⟨_, _, rfl⟩
      cases password with
      | ioException | null =>
        simp only [hread'] at h
        exact .inr ⟨by simp [hread'], .of_eq (by simp [errorMsg, hread', LineRead.isLine]) h⟩
      | line password =>
        simp only [hread'] at h
        simp only [hset, hlong, hread', LineRead.isLine, decide_true, Bool.and_self, if_true]
        rcases verify_cases h with ⟨hname, hhash, hlogs⟩ | ⟨hnot, hrefuses⟩
        · refine .inl ⟨⟨password, rfl, trivial, trivial, hname, hhash⟩, ?_⟩
          exact ⟨hlogs.authHosts, hlogs.isOpen, hlogs.remoteIp_eq, hlogs.leave⟩
        · refine .inr ⟨?_, ⟨hrefuses.reads.writes, hrefuses.reads.isOpen, hrefuses.reads.authHosts⟩,
            hrefuses.remoteIp_eq, hrefuses.leave⟩
          rintro ⟨text, htext, -, -, hname, hhash⟩
          cases htext
          exact hnot ⟨hname, hhash⟩
    · simp only [hset, Bool.false_and, Bool.false_eq_true, if_false]
      refine .inr ⟨?_, .of_eq rfl h⟩
      rintro ⟨-, -, hstarts, -⟩
      exact hstarts

/-- The remote IP is found, or the block is left. -/
theorem findRemoteIp_cases (remote : RemoteAddress) (call : ChannelCall) :
    (∃ leave rest, findRemoteIp remote call = (.error leave, { call with reads := rest }) ∧
        errorMsg leave = some REQUIRED) ∨
      ∃ ip rest,
        findRemoteIp remote call = (.ok ip, { call with reads := rest, remoteIp := some ip }) := by
  unfold findRemoteIp ChannelCall.readLine
  split_ifs
  · exact .inl ⟨_, call.reads, rfl, rfl⟩
  · obtain ⟨line, rest, hread⟩ : ∃ line rest, readLine call.reads = (line, rest) := ⟨_, _, rfl⟩
    simp only [hread]
    cases line with
    | ioException | null => exact .inl ⟨_, rest, rfl, rfl⟩
    | line proxyLine =>
      cases hproxy : proxyIp proxyLine with
      | none =>
        simp only [hproxy]
        exact .inl ⟨_, rest, rfl, rfl⟩
      | some ip =>
        simp only [hproxy]
        exact .inr ⟨ip, rest, rfl⟩
  · exact .inr ⟨_, call.reads, rfl⟩

theorem addressOf_of_ok (h : findRemoteIp remote call = (.ok ip, next)) :
    addressOf remote call = some ip := by
  unfold addressOf
  split_ifs with hloopback
  · rw [h]
    rfl
  · unfold findRemoteIp at h
    split_ifs at h
    · simp at h
    · rw [(Except.ok.inj (congrArg Prod.fst h) : remote.hostString = ip)]

/-- What a call for a pending connection comes to. -/
structure Concludes (conf : AuthorizationConf) (remote : RemoteAddress) (call final : ChannelCall) :
    Prop where
  remoteIp : final.remoteIp = (findRemoteIp remote call).1.toOption
  kept : ∀ {ip}, call.authHosts ip = true → final.authHosts ip = true
  added : ∀ {ip}, final.authHosts ip = true → call.authHosts ip = true ∨
    ∃ next, findRemoteIp remote call = (.ok ip, next) ∧ SendsCredentials conf next.reads
  admits : Admits conf remote call → ∃ ip, addressOf remote call = some ip ∧
    final.authHosts ip = true
  refuses : ¬ Admits conf remote call → final.authHosts = call.authHosts ∧
    (final.isOpen = true ↔
      call.isOpen = true ∧ WriteFails (refusal conf remote call) call.writes)

/-- An error message is written and the channel is closed, unless a write of it fails. -/
theorem sendErrorAndClose_spec (errorMsg : String) (call : ChannelCall) :
    (call.sendErrorAndClose errorMsg).authHosts = call.authHosts ∧
      (call.sendErrorAndClose errorMsg).remoteIp = call.remoteIp ∧
      ((call.sendErrorAndClose errorMsg).isOpen = true ↔
        call.isOpen = true ∧ WriteFails errorMsg call.writes) := by
  unfold ChannelCall.sendErrorAndClose
  rcases writeString_cases errorMsg call with ⟨hfails, writes, written, hwrite⟩ |
    ⟨hfails, writes, hwrite⟩
  · simp [hwrite, hfails]
  · simp [hwrite, hfails]

/-- Without a login only a host that is authorized already is admitted. -/
theorem Admits.authorized (h : Admits conf remote call)
    (hnot : ∀ ip next, findRemoteIp remote call = (.ok ip, next) →
      ¬ SendsCredentials conf next.reads) :
    ∃ ip, addressOf remote call = some ip ∧ call.authHosts ip = true := by
  obtain ⟨ip, haddress, hhost | ⟨next, hok, hsends⟩⟩ := h
  · exact ⟨ip, haddress, hhost⟩
  · exact absurd hsends (hnot ip next hok)

theorem Concludes.of_refused (hreads : Reads call next)
    (hremoteIp : next.remoteIp = (findRemoteIp remote call).1.toOption)
    (hadmits : Admits conf remote call → ∃ ip, addressOf remote call = some ip ∧
      call.authHosts ip = true) :
    Concludes conf remote call (next.sendErrorAndClose (refusal conf remote call)) := by
  obtain ⟨hhosts, haddress, hopen⟩ := sendErrorAndClose_spec (refusal conf remote call) next
  rw [hreads.authHosts] at hhosts
  rw [hreads.isOpen, hreads.writes] at hopen
  refine ⟨haddress.trans hremoteIp, ?_, ?_, ?_, fun _ => ⟨hhosts, hopen⟩⟩
  · intro ip hip
    rwa [hhosts]
  · intro ip hip
    exact .inl (hhosts ▸ hip)
  · intro h
    obtain ⟨ip, haddressOf, hip⟩ := hadmits h
    exact ⟨ip, haddressOf, by rwa [hhosts]⟩

/-- A host that is authorized already, or has logged in. -/
theorem Concludes.of_admitted (hip : findRemoteIp remote call = (.ok ip, next))
    (hremoteIp : final.remoteIp = some ip) (hadmitted : call.authHosts ip = true ∧
      final.authHosts = call.authHosts ∨ SendsCredentials conf next.reads ∧
        final.authHosts = update call.authHosts ip true) : Concludes conf remote call final := by
  have haddress := addressOf_of_ok hip
  have hadmits : Admits conf remote call :=
    ⟨ip, haddress, hadmitted.imp (·.1) fun h => ⟨next, hip, h.1⟩⟩
  have hauthorized : final.authHosts ip = true := by
    rcases hadmitted with ⟨hold, hhosts⟩ | ⟨-, hhosts⟩
    · rwa [hhosts]
    · rw [hhosts, update_self]
  refine ⟨by rw [hremoteIp, hip]; rfl, fun {ip'} hip' => ?_, fun {ip'} hip' => ?_,
    fun _ => ⟨ip, haddress, hauthorized⟩, fun hnot => absurd hadmits hnot⟩
  · by_cases hsame : ip' = ip
    · rwa [hsame]
    · rcases hadmitted with ⟨-, hhosts⟩ | ⟨-, hhosts⟩
      · rwa [hhosts]
      · rwa [hhosts, update_of_ne hsame]
  · rcases hadmitted with ⟨-, hhosts⟩ | ⟨hsends, hhosts⟩
    · rw [hhosts] at hip'
      exact .inl hip'
    · by_cases hsame : ip' = ip
      · rw [hsame]
        exact .inr ⟨next, hip, hsends⟩
      · rw [hhosts, update_of_ne hsame] at hip'
        exact .inl hip'

end Attempt

section Calls

variable {κ : Type} [DecidableEq κ] {conf : AuthorizationConf} {remote : κ → RemoteAddress}
  {st st' : AuthorizationHandler κ} {channel : κ} {script : Script}

theorem authorizeConnection_of_refused {leave : Leave} {next : ChannelCall} {msg : String}
    (hpending : st.pendingConns channel = true)
    (hattempt : attempt conf (remote channel) (st.start channel script) = (leave, next))
    (hmsg : errorMsg leave = some msg) :
    st.authorizeConnection conf remote channel script =
      (true, st.finish channel (next.sendErrorAndClose msg)) := by
  cases leave with
  | returns result => cases hmsg
  | refuses errorMsg | ioException =>
    obtain rfl := Option.some.inj hmsg
    simp only [authorizeConnection, hpending, if_true, hattempt]

variable (conf remote script) in
/-- A call for a pending connection. -/
theorem authorizeConnection_concludes (hpending : st.pendingConns channel = true) :
    ∃ final, (st.authorizeConnection conf remote channel script).2 = st.finish channel final ∧
      Concludes conf (remote channel) (st.start channel script) final := by
  rcases findRemoteIp_cases (remote channel) (st.start channel script) with
    ⟨leave, rest, hfind, hleave⟩ | ⟨ip, rest, hfind⟩
  · have hattempt : attempt conf (remote channel) (st.start channel script) =
        (leave, { st.start channel script with reads := rest }) := by
      rw [attempt, hfind]
    have hmsg : refusal conf (remote channel) (st.start channel script) = REQUIRED := by
      rw [refusal, hfind]
    rw [authorizeConnection_of_refused hpending hattempt (hmsg ▸ hleave)]
    refine ⟨_, rfl, .of_refused ⟨rfl, rfl, rfl⟩ (by rw [hfind]; rfl) fun hadmits => ?_⟩
    refine hadmits.authorized fun ip next hok => ?_
    rw [hfind] at hok
    exact nomatch congrArg Prod.fst hok
  · by_cases hhost : (st.start channel script).authHosts ip = true
    · refine ⟨{ st.start channel script with reads := rest, remoteIp := some ip }, ?_,
        .of_admitted hfind rfl (.inl ⟨hhost, rfl⟩)⟩
      simp only [authorizeConnection, hpending, if_true, attempt, hfind, hhost]
    · obtain ⟨leave, next, hlogin⟩ : ∃ leave next, login conf ip
          { st.start channel script with reads := rest, remoteIp := some ip } = (leave, next) :=
        ⟨_, _, rfl⟩
      have hattempt : attempt conf (remote channel) (st.start channel script) = (leave, next) := by
        simp only [attempt, hfind, hhost, hlogin, Bool.false_eq_true, if_false]
      rcases login_cases hlogin with ⟨hsends, hlogs⟩ | ⟨hnot, hrefuses⟩
      · rcases hlogs.leave with rfl | rfl
        · refine ⟨next, ?_, .of_admitted hfind hlogs.remoteIp_eq (.inr ⟨hsends, hlogs.authHosts⟩)⟩
          simp only [authorizeConnection, hpending, if_true, hattempt]
        · obtain ⟨hhosts, haddress, -⟩ := sendErrorAndClose_spec REQUIRED next
          rw [authorizeConnection_of_refused hpending hattempt rfl]
          exact ⟨_, rfl, .of_admitted hfind (haddress.trans hlogs.remoteIp_eq)
            (.inr ⟨hsends, hhosts.trans hlogs.authHosts⟩)⟩
      · have hmsg : refusal conf (remote channel) (st.start channel script) =
            loginRefusal conf rest := by
          rw [refusal, hfind]
        have hremoteIp : next.remoteIp =
            (findRemoteIp (remote channel) (st.start channel script)).1.toOption := by
          rw [hfind]
          exact hrefuses.remoteIp_eq
        rw [authorizeConnection_of_refused hpending hattempt (hmsg ▸ hrefuses.leave)]
        refine ⟨_, rfl, .of_refused ⟨hrefuses.reads.writes, hrefuses.reads.isOpen,
          hrefuses.reads.authHosts⟩ hremoteIp fun hadmits => ?_⟩
        refine hadmits.authorized fun ip' next' hok => ?_
        rw [hfind] at hok
        obtain ⟨-, rfl⟩ := Prod.mk.inj hok
        exact hnot

/-- The address that stood for a channel in the last call for it. -/
def ipOf (remote : κ → RemoteAddress) (st : AuthorizationHandler κ) (channel : κ) : Option Text :=
  if (remote channel).isLoopbackAddress then st.remoteIp channel
  else some (remote channel).hostString

/-- A channel that was added and is no longer pending is closed, or its host is authorized. -/
def Secured (remote : κ → RemoteAddress) (st : AuthorizationHandler κ) : Prop :=
  ∀ channel, st.added channel = true → st.pendingConns channel = false →
    st.isOpen channel = false ∨ ∃ ip, ipOf remote st channel = some ip ∧ st.authHosts ip = true

/-- The error message cannot be written in a call for an open, pending channel whose host is not
authorized and does not log in. -/
def Abandons (conf : AuthorizationConf) (remote : κ → RemoteAddress) (st : AuthorizationHandler κ) :
    Event κ → Prop
  | .authorizeConnection channel script =>
    st.pendingConns channel = true ∧ st.isOpen channel = true ∧
      WriteFails (refusal conf (remote channel) (st.start channel script)) script.writes ∧
      ¬ Admits conf (remote channel) (st.start channel script)
  | .addPendingConnection _ | .close _ => False

/-- A host logs in with lines that have a CR elsewhere than at their end, or with bytes or a login
name that are not ASCII. -/
def Garbles (conf : AuthorizationConf) (remote : κ → RemoteAddress) (st : AuthorizationHandler κ) :
    Event κ → Prop
  | .authorizeConnection channel script =>
    st.pendingConns channel = true ∧
      (∃ ip next, findRemoteIp (remote channel) (st.start channel script) = (.ok ip, next) ∧
        st.authHosts ip = false ∧ SendsCredentials conf next.reads) ∧
      ¬ PlainLogin conf (remote channel) (delivered script.reads)
  | .addPendingConnection _ | .close _ => False

structure Consistent (remote : κ → RemoteAddress) (st : AuthorizationHandler κ) : Prop where
  added : ∀ channel, st.pendingConns channel = true → st.added channel = true
  secured : st.Secured remote

theorem Concludes.ipOf_eq {final : ChannelCall}
    (h : Concludes conf (remote channel) (st.start channel script) final) :
    ipOf remote (st.finish channel final) channel =
      addressOf (remote channel) (st.start channel script) := by
  unfold ipOf addressOf
  split_ifs
  · simp only [finish, update_self]
    exact h.remoteIp
  · rfl

/-- What a call does to a channel other than its own is to authorize hosts. -/
theorem Concludes.other {final : ChannelCall}
    (h : Concludes conf (remote channel) (st.start channel script) final) {channel' : κ}
    (hne : channel' ≠ channel) (hsecured : st.isOpen channel' = false ∨
      ∃ ip, ipOf remote st channel' = some ip ∧ st.authHosts ip = true) :
    (st.finish channel final).isOpen channel' = false ∨
      ∃ ip, ipOf remote (st.finish channel final) channel' = some ip ∧
        (st.finish channel final).authHosts ip = true := by
  rcases hsecured with hclosed | ⟨ip, hip, hhost⟩
  · refine .inl ?_
    simpa only [finish, update_of_ne hne] using hclosed
  · refine .inr ⟨ip, ?_, h.kept hhost⟩
    simpa only [ipOf, finish, update_of_ne hne] using hip

theorem Consistent.authorizeConnection (h : st.Consistent remote)
    (hpending : st.pendingConns channel = true)
    (hkeeps : ¬ Abandons conf remote st (.authorizeConnection channel script)) :
    Consistent remote (st.authorizeConnection conf remote channel script).2 := by
  obtain ⟨final, hfinish, hconcludes⟩ :=
    authorizeConnection_concludes conf remote script hpending
  rw [hfinish]
  refine ⟨fun channel' hpending' => ?_, fun channel' hadded hnotPending => ?_⟩
  · by_cases hsame : channel' = channel
    · subst hsame
      exact h.added channel' hpending
    · exact h.added channel' (by simpa only [finish, update_of_ne hsame] using hpending')
  · by_cases hsame : channel' = channel
    · subst hsame
      by_cases hadmits : Admits conf (remote channel') (st.start channel' script)
      · obtain ⟨ip, haddress, hhost⟩ := hconcludes.admits hadmits
        exact .inr ⟨ip, hconcludes.ipOf_eq.trans haddress, hhost⟩
      · refine .inl ?_
        simp only [finish, update_self]
        apply eq_false_of_ne_true
        intro hopen
        obtain ⟨hwasOpen, hfails⟩ := (hconcludes.refuses hadmits).2.mp hopen
        exact hkeeps ⟨hpending, hwasOpen, hfails, hadmits⟩
    · apply hconcludes.other hsame
      exact h.secured channel' hadded (by simpa only [finish, update_of_ne hsame] using hnotPending)

theorem Consistent.step (h : st.Consistent remote) {e : Event κ}
    (hkeeps : ¬ Abandons conf remote st e) (hstep : st.step conf remote e = some st') :
    st'.Consistent remote := by
  cases e with
  | addPendingConnection channel =>
    obtain rfl := Option.some.inj hstep
    refine ⟨fun channel' hpending => ?_, fun channel' hadded hnotPending => ?_⟩
    all_goals
      simp only [addPendingConnection] at *
      by_cases hsame : channel' = channel
    · rw [hsame, update_self]
    · rw [update_of_ne hsame] at hpending ⊢
      exact h.added channel' hpending
    · rw [hsame, update_self] at hnotPending
      cases hnotPending
    · rw [update_of_ne hsame] at hadded hnotPending
      exact h.secured channel' hadded hnotPending
  | authorizeConnection channel script =>
    obtain rfl := Option.some.inj hstep
    by_cases hpending : st.pendingConns channel = true
    · exact h.authorizeConnection hpending hkeeps
    · rw [AuthorizationHandler.authorizeConnection, if_neg hpending]
      exact h
  | close channel =>
    obtain rfl := Option.some.inj hstep
    refine ⟨h.added, fun channel' hadded hnotPending => ?_⟩
    by_cases hsame : channel' = channel
    · rw [hsame]
      exact .inl (update_self ..)
    · rcases h.secured channel' hadded hnotPending with hclosed | hhost
      · exact .inl (by simpa only [update_of_ne hsame] using hclosed)
      · exact .inr hhost

/-- A channel whose error message cannot be written stays open. -/
theorem Consistent.not_secured (h : st.Consistent remote) {e : Event κ}
    (habandons : Abandons conf remote st e) (hstep : st.step conf remote e = some st') :
    ¬ st'.Secured remote := by
  cases e with
  | addPendingConnection channel | close channel => exact absurd habandons id
  | authorizeConnection channel script =>
    obtain ⟨hpending, hopen, hfails, hnot⟩ := habandons
    obtain rfl := Option.some.inj hstep
    obtain ⟨final, hfinish, hconcludes⟩ := authorizeConnection_concludes conf remote script hpending
    obtain ⟨hhosts, hclose⟩ := hconcludes.refuses hnot
    rw [hfinish]
    intro hsecured
    rcases hsecured channel (h.added channel hpending) (update_self ..) with
      hclosed | ⟨ip, hip, hhost⟩
    · simp only [finish, update_self] at hclosed
      rw [hclose.mpr ⟨hopen, hfails⟩] at hclosed
      cases hclosed
    · rw [hconcludes.ipOf_eq] at hip
      simp only [finish, hhosts] at hhost
      exact hnot ⟨ip, hip, .inl hhost⟩

/-- A host is authorized only by a call in which it logs in. -/
theorem sendsCredentials_of_step {e : Event κ} (hstep : st.step conf remote e = some st')
    {ip : Text} (hold : st.authHosts ip = false) (hnew : st'.authHosts ip = true) :
    ∃ channel script next, e = .authorizeConnection channel script ∧
      st.pendingConns channel = true ∧
      findRemoteIp (remote channel) (st.start channel script) = (.ok ip, next) ∧
      SendsCredentials conf next.reads := by
  cases e with
  | addPendingConnection channel | close channel =>
    obtain rfl := Option.some.inj hstep
    exact absurd hnew (by simp [addPendingConnection, hold])
  | authorizeConnection channel script =>
    obtain rfl := Option.some.inj hstep
    by_cases hpending : st.pendingConns channel = true
    · obtain ⟨final, hfinish, hconcludes⟩ :=
        authorizeConnection_concludes conf remote script hpending
      rw [hfinish] at hnew
      rcases hconcludes.added hnew with hhost | ⟨next, hfind, hsends⟩
      · exact absurd (hhost.symm.trans hold) (by simp)
      · exact ⟨channel, script, next, rfl, hpending, hfind, hsends⟩
    · rw [AuthorizationHandler.authorizeConnection, if_neg hpending, hold] at hnew
      cases hnew

end Calls

variable {κ : Type} [DecidableEq κ]

/-- In every run in which no channel is abandoned, a channel that was added is pending, closed or of
an authorized host, and after a step that abandons one it is not so. In all runs, a host is
authorized only by a call for a channel that has sent the credentials, unless they are garbled. -/
theorem pending_secured (conf : AuthorizationConf) (remote : κ → RemoteAddress) :
    (∀ st, Runs (step conf remote) (fun st e => ¬ Abandons conf remote st e) {} st →
      st.Secured remote ∧ ∀ e st', st.step conf remote e = some st' →
        Abandons conf remote st e → ¬ st'.Secured remote) ∧
    ∀ st, Runs (step conf remote) (fun _ _ => True) {} st →
      ∀ e st' ip, ¬ Garbles conf remote st e → st.step conf remote e = some st' →
        st.authHosts ip = false → st'.authHosts ip = true → ∃ channel script,
          e = .authorizeConnection channel script ∧ st.pendingConns channel = true ∧
          addressOf (remote channel) (st.start channel script) = some ip ∧
          SentCredentials conf (remote channel) (delivered script.reads) := by
  refine ⟨fun st hrun => ?_, fun st _ e st' ip hplain hstep hold hnew => ?_⟩
  · have hstart : Consistent remote ({} : AuthorizationHandler κ) :=
      ⟨(fun _ h => nomatch h), (fun _ h => nomatch h)⟩
    have hconsistent := hrun.invariant hstart fun h hkeeps hstep => h.step hkeeps hstep
    exact ⟨hconsistent.secured, fun e st' hstep habandons =>
      hconsistent.not_secured habandons hstep⟩
  · obtain ⟨channel, script, next, rfl, hpending, hfind, hsends⟩ :=
      sendsCredentials_of_step hstep hold hnew
    refine ⟨channel, script, rfl, hpending, addressOf_of_ok hfind, ?_⟩
    by_contra hnot
    refine hplain ⟨hpending, ⟨ip, next, hfind, hold, hsends⟩, fun hlines => hnot ?_⟩
    exact sentCredentials_of_plain hlines hfind hsends

/-- A client is not told that authorization is required. -/
theorem not_pending_secured_write :
    ¬ ∀ (conf : AuthorizationConf) (remote : Nat → RemoteAddress) (st : AuthorizationHandler Nat),
      Runs (step conf remote) (fun _ _ => True) {} st → st.Secured remote := by
  intro h
  let conf : AuthorizationConf :=
    { userLoginName := some "user".toList, userPasswordSHA256 := some []
      hashUtil := ⟨id, List.map asciiChar⟩ }
  let remote : Nat → RemoteAddress := fun _ => ⟨false, "10.0.0.1".toList⟩
  let get : Script :=
    { reads := (ascii "get k\r\n").map .byte, writes := [.throws] }
  obtain ⟨st, hst⟩ : ∃ st, follow (step conf remote) {}
      [.addPendingConnection 7, .authorizeConnection 7 get] = some st := ⟨_, rfl⟩
  have hsecured := h conf remote st (runs_of_follow hst fun _ _ _ => trivial)
  cases hst
  rcases hsecured 7 rfl rfl with hclosed | ⟨ip, -, hhost⟩
  · cases hclosed
  · cases hhost

/-- A login with a CR in the command word and in the password. -/
example :
    let conf : AuthorizationConf :=
      { userLoginName := some "user".toList, userPasswordSHA256 := some "secret".toList
        hashUtil := ⟨id, List.map asciiChar⟩ }
    let login : Script := { reads := (ascii "s\ret user 0 0 6\r\nsec\rret\r\n").map .byte }
    ((addPendingConnection 7 {}).authorizeConnection conf
      (fun _ => ⟨false, "10.0.0.1".toList⟩) (7 : Nat) login).2.authHosts "10.0.0.1".toList =
        true := by
  decide +kernel

end Memcarrot.AuthorizationHandler
