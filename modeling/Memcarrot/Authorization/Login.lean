import Memcarrot.Authorization.Pending
import Memcarrot.Client.Records
import Memcarrot.Client.SimpleClient
import Memcarrot.Wire.BrokenLines

open Function Transition

namespace Memcarrot.AuthorizationHandler

/-- The line of a set of the client, without its end. -/
def setLine (key value : List UInt8) (flags : Int32) (expire : Int64) (noreply : Bool) :
    List UInt8 :=
  CommandClass.SET.word ++ SP :: (key ++ SP :: (Decimal.toString flags.toInt ++ SP ::
    (Decimal.toString expire.toInt ++ SP ::
      (Decimal.toString value.length ++ SimpleClient.putNoreply noreply))))

section Line

variable {key : List UInt8} (value : List UInt8) (flags : Int32) (expire : Int64) (noreply : Bool)

theorem set_eq (key : List UInt8) :
    SimpleClient.set key value flags expire noreply =
      setLine key value flags expire noreply ++ CRLF ++ (value ++ CRLF) := by
  simp [SimpleClient.set, SimpleClient.store, SimpleClient.putCas, setLine]

theorem space_not_mem {token : List UInt8} (h : SP ∉ token) : ' ' ∉ token.map toChar := by
  intro hmem
  obtain ⟨b, hb, hspace⟩ := List.mem_map.mp hmem
  exact h (toChar_eq_space_iff.mp hspace ▸ hb)

theorem cr_notMem_setLine (hkey : Wire.IsToken key) :
    CR ∉ setLine key value flags expire noreply := by
  have hnumber (value : Int) : CR ∉ Decimal.toString value := Item.ne_of_mem_toString rfl
  have hnoreply : CR ∉ SimpleClient.putNoreply noreply := by cases noreply <;> decide
  simp only [setLine, List.mem_append, List.mem_cons, not_or]
  exact ⟨by decide, by decide, hkey.cr_notMem, by decide, hnumber _, by decide, hnumber _,
    by decide, hnumber _, hnoreply⟩

/-- The line is split into the tokens that it was put together from. -/
theorem split_setLine (hkey : Wire.IsToken key) :
    Text.split ((setLine key value flags expire noreply).map toChar) =
      ["set".toList, key.map toChar, (Decimal.toString flags.toInt).map toChar,
        (Decimal.toString expire.toInt).map toChar,
        (Decimal.toString value.length).map toChar] ++
        if noreply then ["noreply".toList] else [] := by
  have hspace : toChar SP = ' ' := rfl
  have hset : CommandClass.SET.word.map toChar = "set".toList := by decide +kernel
  have hword : NOREPLY.map toChar = "noreply".toList := by decide +kernel
  have hkeyText : ' ' ∉ key.map toChar := space_not_mem fun hmem =>
    (Wire.isTokenByte_eq_true_iff.mp (hkey.bytes SP hmem)).1 rfl
  have hnumber (value : Int) : ' ' ∉ (Decimal.toString value).map toChar :=
    space_not_mem (Item.ne_of_mem_toString rfl)
  cases noreply with
  | false =>
    have hne : (Decimal.toString value.length).map toChar ≠ [] := by
      simpa using Decimal.toString_ne_nil (value.length : Int)
    have hsplit := Text.split_intercalate
      ["set".toList, key.map toChar, (Decimal.toString flags.toInt).map toChar,
        (Decimal.toString expire.toInt).map toChar] ((Decimal.toString value.length).map toChar)
      (by simp [hkeyText, hnumber]) hne
    simpa [setLine, SimpleClient.putNoreply, hset, hspace, List.intercalate] using hsplit
  | true =>
    have hsplit := Text.split_intercalate
      ["set".toList, key.map toChar, (Decimal.toString flags.toInt).map toChar,
        (Decimal.toString expire.toInt).map toChar, (Decimal.toString value.length).map toChar]
      "noreply".toList (by simp [hkeyText, hnumber]) (by simp)
    simpa [setLine, SimpleClient.putNoreply, hset, hword, hspace, List.intercalate] using hsplit

end Line

section Login

variable {conf : AuthorizationConf} {call : ChannelCall}
  {user password rest : List UInt8} {flags : Int32} {expire : Int64} {noreply : Bool}

/-- The configured login name, in ASCII, and a password with the configured hash. -/
def Credentials (conf : AuthorizationConf) (user password : List UInt8) : Prop :=
  conf.userLoginName = some (user.map asciiChar) ∧
    conf.userPasswordSHA256 = some (conf.hashUtil.toHex (conf.hashUtil.sha256 password))

/-- Cast to characters and encoded again, ASCII bytes are what they were. -/
theorem credentials_iff (hascii : ∀ b ∈ user ++ password, b < 0x80) :
    Credentials conf user password ↔ conf.userLoginName = some (user.map toChar) ∧
      conf.userPasswordSHA256 = some (conf.hashUtil.hashString (password.map toChar)) := by
  rw [List.forall_mem_append] at hascii
  rw [Credentials, map_toChar_of_ascii hascii.1, HashUtil.hashString,
    Text.getBytes_map_toChar hascii.2]

/-- A set of the client is read as its key and its value, and what follows it is left. -/
theorem login_eq (conf : AuthorizationConf) (ip : Text) (huser : Wire.IsToken user)
    (hpassword : CR ∉ password)
    (hreads : delivered call.reads =
      SimpleClient.set user password flags expire noreply ++ rest) :
    ∃ left, login conf ip call =
        verify conf ip (user.map toChar) (password.map toChar) noreply left ∧
      delivered left.reads = rest ∧ Reads call left ∧ left.written = call.written := by
  obtain ⟨afterLine, hline, hafterLine⟩ : ∃ reads, readLine call.reads =
      (.line ((setLine user password flags expire noreply).map toChar), reads) ∧
        delivered reads = password ++ CR :: ([] ++ LF :: rest) := by
    have hsplit : delivered call.reads = setLine user password flags expire noreply ++
        CR :: ([] ++ LF :: (password ++ CR :: ([] ++ LF :: rest))) := by
      rw [hreads, set_eq]
      simp [CRLF]
    simpa using readLine_of_split hsplit
      (cr_notMem_setLine password flags expire noreply huser) List.not_mem_nil
  obtain ⟨afterPassword, hread, hrest⟩ : ∃ reads, readLine afterLine =
      (.line (password.map toChar), reads) ∧ delivered reads = rest := by
    simpa using readLine_of_split hafterLine hpassword List.not_mem_nil
  refine ⟨{ call with reads := afterPassword }, ?_, hrest, ⟨rfl, rfl, rfl⟩, rfl⟩
  have hstarts : Text.startsWith ((setLine user password flags expire noreply).map toChar)
      "set ".toList = true := by
    simp only [setLine, Text.startsWith, List.map_append]
    rfl
  have hsplit := split_setLine password flags expire noreply huser
  simp only [login, ChannelCall.readLine, hline, hread, hstarts, hsplit, if_true]
  cases noreply <;> simp

/-- What is written where no write throws. -/
theorem not_writeFails (data : String) {writes : List Attempt} (h : .throws ∉ writes) :
    ¬ WriteFails data writes := by
  rintro ⟨before, after, rfl, -⟩
  exact h (List.mem_append_right _ List.mem_cons_self)

/-- The host is authorized, and STORED is written unless noreply is asked for. -/
theorem verify_of_credentials (ip : Text) (noreply : Bool) (call : ChannelCall)
    (hascii : ∀ b ∈ user ++ password, b < 0x80) (h : Credentials conf user password)
    (hwrites : .throws ∉ call.writes) :
    ∃ final, verify conf ip (user.map toChar) (password.map toChar) noreply call =
        (.returns true, final) ∧ final.reads = call.reads ∧
      final.authHosts = update call.authHosts ip true ∧ final.isOpen = call.isOpen ∧
      final.written = call.written ++ if noreply then [] else ascii "STORED\r\n" := by
  obtain ⟨hlogin, hhash⟩ := (credentials_iff hascii).mp h
  simp only [verify, hlogin, hhash, and_self, if_true]
  cases noreply with
  | true => exact ⟨_, rfl, rfl, rfl, rfl, (List.append_nil _).symm⟩
  | false =>
    rcases writeString_cases "STORED\r\n"
      { call with authHosts := update call.authHosts ip true } with
      ⟨hfails, -⟩ | ⟨-, writes, hwrite⟩
    · exact absurd hfails (not_writeFails _ hwrites)
    · simp only [hwrite]
      have hstored : Text.getBytes "STORED\r\n".toList = ascii "STORED\r\n" := by decide +kernel
      exact ⟨_, rfl, rfl, rfl, rfl, by rw [hstored]; rfl⟩

theorem verify_of_not_credentials (ip : Text) (noreply : Bool) (call : ChannelCall)
    (hascii : ∀ b ∈ user ++ password, b < 0x80) (h : ¬ Credentials conf user password) :
    ∃ errorMsg, verify conf ip (user.map toChar) (password.map toChar) noreply call =
      (.refuses errorMsg, call) := by
  unfold verify
  cases hlogin : conf.userLoginName with
  | none => exact ⟨_, rfl⟩
  | some loginName =>
    cases hhash : conf.userPasswordSHA256 with
    | none => exact ⟨_, rfl⟩
    | some hashedPassword =>
      have hwrong : ¬ (user.map toChar = loginName ∧
          conf.hashUtil.hashString (password.map toChar) = hashedPassword) := by
        rintro ⟨rfl, rfl⟩
        exact h ((credentials_iff hascii).mpr ⟨hlogin, hhash⟩)
      simp only [hwrong, if_false]
      exact ⟨_, rfl⟩

end Login

section Runs

variable {κ : Type} [DecidableEq κ] {conf : AuthorizationConf} {remote : κ → RemoteAddress}
  {st later : AuthorizationHandler κ} {channel : κ} {script : Script} {ip : Text}
  {next : ChannelCall} {user password rest : List UInt8} {flags : Int32} {expire : Int64}
  {noreply : Bool}

theorem authHosts_of_step {e : Event κ} (hstep : st.step conf remote e = some later)
    (hhost : st.authHosts ip = true) : later.authHosts ip = true := by
  cases e with
  | addPendingConnection channel | close channel =>
    obtain rfl := Option.some.inj hstep
    exact hhost
  | authorizeConnection channel script =>
    obtain rfl := Option.some.inj hstep
    by_cases hpending : st.pendingConns channel = true
    · obtain ⟨final, hfinish, hconcludes⟩ :=
        authorizeConnection_concludes conf remote script hpending
      rw [hfinish]
      exact hconcludes.kept hhost
    · rwa [authorizeConnection, if_neg hpending]

/-- An authorized host stays authorized. -/
theorem authHosts_of_run {allowed : AuthorizationHandler κ → Event κ → Prop}
    (hrun : Runs (step conf remote) allowed st later) (hhost : st.authHosts ip = true) :
    later.authHosts ip = true := by
  induction hrun with
  | refl => exact hhost
  | tail _ hlast ih =>
    obtain ⟨e, -, hstep⟩ := hlast
    exact authHosts_of_step hstep ih

/-- What is found of a channel is its address: nothing is written to it. -/
theorem reads_of_findRemoteIp {remote : RemoteAddress} {call : ChannelCall}
    (h : findRemoteIp remote call = (.ok ip, next)) :
    Reads call next ∧ next.written = call.written := by
  rcases findRemoteIp_cases remote call with ⟨leave, reads, hcase, -⟩ | ⟨ip', reads, hcase⟩
  · rw [hcase] at h
    cases h
  · rw [hcase] at h
    obtain ⟨-, rfl⟩ := Prod.mk.inj h
    exact ⟨⟨rfl, rfl, rfl⟩, rfl⟩

theorem authorizeConnection_of_authorized (hpending : st.pendingConns channel = true)
    (hfind : findRemoteIp (remote channel) (st.start channel script) = (.ok ip, next))
    (hhost : st.authHosts ip = true) :
    st.authorizeConnection conf remote channel script = (false, st.finish channel next) := by
  have hnext : next.authHosts ip = true := by
    rw [(reads_of_findRemoteIp hfind).1.authHosts]
    exact hhost
  simp only [authorizeConnection, hpending, if_true, attempt, hfind, hnext]

omit [DecidableEq κ] in
theorem attempt_of_login {leave : Leave} {final : ChannelCall}
    (hfind : findRemoteIp (remote channel) (st.start channel script) = (.ok ip, next))
    (hhost : st.authHosts ip = false) (hlogin : login conf ip next = (leave, final)) :
    attempt conf (remote channel) (st.start channel script) = (leave, final) := by
  have hnext : next.authHosts ip = false := by
    rw [(reads_of_findRemoteIp hfind).1.authHosts]
    exact hhost
  simp only [attempt, hfind, hnext, hlogin, Bool.false_eq_true, if_false]

/-- A set of the configured user with the password logs its host in, leaves what follows it on the
channel, and from then on every connection of this host is let through unread; any other set is
refused, and the channel is closed. The user and the password are ASCII, there is no CR in the
password, and no write to the channel throws. -/
theorem set_logs_in (huser : Wire.IsToken user) (hascii : ∀ b ∈ user ++ password, b < 0x80)
    (hpassword : CR ∉ password) (hpending : st.pendingConns channel = true)
    (hfind : findRemoteIp (remote channel) (st.start channel script) = (.ok ip, next))
    (hhost : st.authHosts ip = false) (hwrites : .throws ∉ script.writes)
    (hreads : delivered next.reads =
      SimpleClient.set user password flags expire noreply ++ rest) :
    ∃ final, st.authorizeConnection conf remote channel script =
        (true, st.finish channel final) ∧ delivered final.reads = rest ∧
      (Credentials conf user password →
        final.isOpen = st.isOpen channel ∧
        final.written = st.written channel ++
          (if noreply then [] else ascii "STORED\r\n") ∧
        ∀ later, Runs (step conf remote) (fun _ _ => True) (st.finish channel final) later →
          ∀ channel script next, later.pendingConns channel = true →
            findRemoteIp (remote channel) (later.start channel script) = (.ok ip, next) →
            later.authorizeConnection conf remote channel script =
              (false, later.finish channel next)) ∧
      (¬ Credentials conf user password →
        final.authHosts = st.authHosts ∧ final.isOpen = false) := by
  obtain ⟨hstart, hstartWritten⟩ := reads_of_findRemoteIp hfind
  obtain ⟨left, hlogin, hleft, hsame, hwritten⟩ := login_eq conf ip huser hpassword hreads
  have hwrites' : .throws ∉ left.writes := by
    rw [hsame.writes, hstart.writes]
    exact hwrites
  by_cases hcredentials : Credentials conf user password
  · obtain ⟨final, hverify, hfinal, hhosts, hopen, hreply⟩ :=
      verify_of_credentials ip noreply left hascii hcredentials hwrites'
    have hattempt := attempt_of_login hfind hhost (hlogin.trans hverify)
    refine ⟨final, by simp only [authorizeConnection, hpending, if_true, hattempt],
      hfinal ▸ hleft, fun _ => ⟨hopen.trans (hsame.isOpen.trans hstart.isOpen), ?_, ?_⟩,
      fun hnot => absurd hcredentials hnot⟩
    · rw [hreply, hwritten, hstartWritten]
      rfl
    · intro later hrun channel' script' next' hpending' hfind'
      have hadmitted : (st.finish channel final).authHosts ip = true := by
        simp only [finish, hhosts, update_self]
      exact authorizeConnection_of_authorized hpending' hfind' (authHosts_of_run hrun hadmitted)
  · obtain ⟨errorMsg, hverify⟩ := verify_of_not_credentials ip noreply left hascii hcredentials
    have hattempt := attempt_of_login hfind hhost (hlogin.trans hverify)
    rcases writeString_cases errorMsg left with ⟨hfails, -⟩ | ⟨-, writes, hwrite⟩
    · exact absurd hfails (not_writeFails _ hwrites')
    · refine ⟨left.sendErrorAndClose errorMsg,
        by simp only [authorizeConnection, hpending, if_true, hattempt], ?_,
        fun h => absurd h hcredentials, fun _ => ?_⟩
      · simpa only [ChannelCall.sendErrorAndClose, hwrite] using hleft
      · simp only [ChannelCall.sendErrorAndClose, hwrite, and_true]
        exact hsame.authHosts.trans hstart.authHosts

/-- The digest of the word secret, and the digits of a digest. -/
def secretHash : HashUtil where
  sha256 bytes := if bytes = ascii "secret" then
      [0x2B, 0xB8, 0x0D, 0x53, 0x7B, 0x1D, 0xA3, 0xE3, 0x8B, 0xD3, 0x03, 0x61, 0xAA, 0x85, 0x56,
        0x86, 0xBD, 0xE0, 0xEA, 0xCD, 0x71, 0x62, 0xFE, 0xF6, 0xA2, 0x5F, 0xE9, 0x7B, 0xF5, 0x27,
        0xA2, 0x5B]
    else []
  toHex bytes := bytes.flatMap fun b =>
    Nat.toDigits 16 (b.toNat / 16) ++ Nat.toDigits 16 (b.toNat % 16)

/-- A login through a proxy, whose header and lines come in parts, with the next command behind it.
The reply is taken in parts, too. -/
theorem set_logs_in_proxied :
    let conf : AuthorizationConf :=
      { userLoginName := some "user".toList
        userPasswordSHA256 :=
          some "2bb80d537b1da3e38bd30361aa855686bde0eacd7162fef6a25fe97bf527a25b".toList
        hashUtil := secretHash }
    let remote : Nat → RemoteAddress := fun _ => ⟨true, "127.0.0.1".toList⟩
    let header : List ChannelRead :=
      .nothing :: (ascii "PROXY TCP4 10.0.0.1 10.0.0.2 5000 11211\r\n").map .byte
    let login : List ChannelRead :=
      (SimpleClient.set (ascii "user") (ascii "secret") 0 0 false ++ ascii "get k\r\n").map .byte
    let script : Script :=
      { reads := header ++ .nothing :: login, writes := [.accepts 3, .accepts 0] }
    let st : AuthorizationHandler Nat := addPendingConnection 7 {}
    ∃ final, st.authorizeConnection conf remote 7 script = (true, st.finish 7 final) ∧
      delivered final.reads = ascii "get k\r\n" ∧ final.written = ascii "STORED\r\n" ∧
      ∀ later, Runs (step conf remote) (fun _ _ => True) (st.finish 7 final) later →
        ∀ channel script next, later.pendingConns channel = true →
          findRemoteIp (remote channel) (later.start channel script) =
            (.ok "10.0.0.1".toList, next) →
          later.authorizeConnection conf remote channel script =
            (false, later.finish channel next) := by
  intro conf remote header login script st
  obtain ⟨next, hfind, hreads⟩ : ∃ next, findRemoteIp (remote 7) (st.start 7 script) =
      (.ok "10.0.0.1".toList, next) ∧ delivered next.reads =
        SimpleClient.set (ascii "user") (ascii "secret") 0 0 false ++ ascii "get k\r\n" :=
    ⟨(findRemoteIp (remote 7) (st.start 7 script)).2, Prod.ext (by decide +kernel) rfl,
      by decide +kernel⟩
  have hcredentials : Credentials conf (ascii "user") (ascii "secret") :=
    ⟨by decide +kernel, by decide +kernel⟩
  obtain ⟨final, hauthorize, hrest, hadmitted, -⟩ := set_logs_in (by decide) (by decide +kernel)
    (by decide) rfl hfind rfl (by decide) hreads
  obtain ⟨-, hwritten, hlater⟩ := hadmitted hcredentials
  exact ⟨final, hauthorize, hrest, hwritten, hlater⟩

end Runs

end Memcarrot.AuthorizationHandler
