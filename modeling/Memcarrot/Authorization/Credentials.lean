import Memcarrot.Authorization.Lines

namespace Memcarrot

theorem Text.getBytes_map_toChar {bytes : List UInt8} (h : ∀ b ∈ bytes, b < 0x80) :
    Text.getBytes (bytes.map toChar) = bytes := by
  rw [map_toChar_of_ascii h, Text.getBytes_map_asciiChar h]

/-- The cast keeps different bytes different: the negative ones go above 0xFF7F. -/
theorem toChar_injective : Function.Injective toChar := by
  intro a b h
  have hcode := congrArg Char.toNat h
  rw [toNat_toChar, toNat_toChar] at hcode
  have ha := a.toNat_lt
  have hb := b.toNat_lt
  rw [← UInt8.toNat_inj]
  split_ifs at hcode <;> omega

/-- The bytes that are cast to ASCII characters are ASCII. -/
theorem ascii_of_map_toChar {bytes : List UInt8} (h : ∀ c ∈ bytes.map toChar, c.toNat < 0x80) :
    ∀ b ∈ bytes, b < 0x80 := by
  intro b hb
  have hcode := toNat_toChar b
  have hlow := h _ (List.mem_map_of_mem hb)
  by_contra hhigh
  rw [if_neg hhigh] at hcode
  omega

def LineRead.isLine : LineRead → Bool
  | .line _ => true
  | .null | .ioException => false

namespace AuthorizationHandler

/-- The next two lines that are read are a set command with enough tokens, and a data line. -/
def sendsSet (reads : List ChannelRead) : Bool :=
  match readLine reads with
  | (.line commandLine, rest) =>
    commandLine.startsWith "set ".toList && decide (5 ≤ commandLine.split.length) &&
      (readLine rest).1.isLine
  | _ => false

/-- The next two lines that are read are a set command for the configured login name and a data line
with the configured hash. -/
def SendsCredentials (conf : AuthorizationConf) (reads : List ChannelRead) : Prop :=
  ∃ commandLine rest password, readLine reads = (.line commandLine, rest) ∧
    (readLine rest).1 = .line password ∧ commandLine.startsWith "set ".toList = true ∧
    5 ≤ commandLine.split.length ∧
    conf.userLoginName = some (commandLine.split.getD 1 []) ∧
    conf.userPasswordSHA256 = some (conf.hashUtil.hashString password)

/-- What comes before the login: a line on a loopback connection. -/
def IsHeader (remote : RemoteAddress) (header : List UInt8) : Prop :=
  if remote.isLoopbackAddress then ∃ proxy, header = proxy ++ CRLF ∧ ¬ CRLF <:+: proxy
  else header = []

/-- The bytes that a channel has sent log a host in: behind the PROXY header of a loopback
connection, a line that begins with set and the configured login name, and a data line with the
configured hash. -/
def SentCredentials (conf : AuthorizationConf) (remote : RemoteAddress) (sent : List UInt8) :
    Prop :=
  ∃ header login more data rest,
    sent = header ++ (ascii "set " ++ (login.getBytes ++ SP :: more) ++
      (CRLF ++ (data ++ (CRLF ++ rest)))) ∧
    IsHeader remote header ∧ ¬ CRLF <:+: more ∧ ¬ CRLF <:+: data ∧
    conf.userLoginName = some login ∧
    conf.userPasswordSHA256 = some (conf.hashUtil.toHex (conf.hashUtil.sha256 data))

/-- In the lines of a login, a CR stands only in front of the LF that ends them, and the password
and the configured login name are ASCII. -/
def PlainLogin (conf : AuthorizationConf) (remote : RemoteAddress) (sent : List UInt8) : Prop :=
  ∃ header line data rest,
    sent = header ++ (line ++ (CRLF ++ (data ++ (CRLF ++ rest)))) ∧
    (if remote.isLoopbackAddress then ∃ proxy, header = proxy ++ CRLF ∧ CR ∉ proxy
      else header = []) ∧
    CR ∉ line ∧ CR ∉ data ∧ (∀ b ∈ data, b < 0x80) ∧
    ∀ login ∈ conf.userLoginName, ∀ c ∈ login, c.toNat < 0x80

variable {conf : AuthorizationConf} {remote : RemoteAddress} {reads : List ChannelRead}

theorem not_crlf_of_cr {bytes : List UInt8} (h : CR ∉ bytes) : ¬ CRLF <:+: bytes :=
  fun hpair => h (hpair.subset (by decide))

/-- A line without another CR is read as it was sent. -/
theorem readLine_of_line {line rest : List UInt8} (h : delivered reads = line ++ (CRLF ++ rest))
    (hline : CR ∉ line) :
    ∃ left, readLine reads = (.line (line.map toChar), left) ∧ delivered left = rest := by
  have hsplit : delivered reads = line ++ CR :: ([] ++ LF :: rest) := h
  simpa using readLine_of_split hsplit hline List.not_mem_nil

theorem toChar_eq_space_iff {b : UInt8} : toChar b = ' ' ↔ b = SP := by
  rw [toChar_eq_iff (by decide), ← UInt8.toNat_inj]
  rfl

/-- A text with this token behind set was sent as these bytes. -/
theorem exists_login_bytes {line : List UInt8}
    (hstarts : Text.startsWith (line.map toChar) "set ".toList = true)
    (hlong : 5 ≤ (Text.split (line.map toChar)).length)
    (hascii : ∀ c ∈ (Text.split (line.map toChar)).getD 1 [], c.toNat < 0x80) :
    ∃ more, line = ascii "set " ++
      (Text.getBytes ((Text.split (line.map toChar)).getD 1 []) ++ SP :: more) := by
  obtain ⟨s, hs⟩ := List.isPrefixOf_iff_prefix.mp hstarts
  have hset : line.map toChar = "set".toList ++ ' ' :: s := hs.symm
  have hthree : 3 ≤ (Text.split ("set".toList ++ ' ' :: s)).length := by
    rw [← hset]
    omega
  obtain ⟨more, hmore⟩ := Text.exists_split_second (by decide) hthree
  rw [← hset] at hmore
  generalize (Text.split (line.map toChar)).getD 1 [] = login at hmore hascii
  have htext : line.map toChar = (ascii "set ").map toChar ++ (login ++ ' ' :: more) := by
    rw [hset, hmore]
    rfl
  obtain ⟨first, behind, rfl, hfirst, hbehind⟩ := List.map_eq_append_iff.mp htext
  obtain ⟨token, tail, rfl, htoken, htail⟩ := List.map_eq_append_iff.mp hbehind
  obtain ⟨space, moreBytes, rfl, hspace, -⟩ := List.map_eq_cons_iff.mp htail
  have htokenAscii := ascii_of_map_toChar (htoken ▸ hascii)
  have hsetBytes : first = ascii "set " := List.map_injective_iff.mpr toChar_injective hfirst
  refine ⟨moreBytes, ?_⟩
  rw [hsetBytes, ← htoken, Text.getBytes_map_toChar htokenAscii, toChar_eq_space_iff.mp hspace]

/-- Where the remote IP is found, a line was read on a loopback connection, else nothing. -/
theorem reads_of_ip {call next : ChannelCall} {ip : Text}
    (h : findRemoteIp remote call = (.ok ip, next)) :
    if remote.isLoopbackAddress then
      ∃ proxyLine, readLine call.reads = (.line proxyLine, next.reads)
    else next.reads = call.reads := by
  unfold findRemoteIp ChannelCall.readLine at h
  split_ifs at h with hfails hloopback
  · cases congrArg Prod.fst h
  · obtain ⟨line, rest, hread⟩ : ∃ line rest, readLine call.reads = (line, rest) := ⟨_, _, rfl⟩
    simp only [hread] at h
    cases line with
    | ioException | null => cases h
    | line proxyLine =>
      cases hproxy : proxyIp proxyLine with
      | none =>
        simp only [hproxy] at h
        cases h
      | some found =>
        simp only [hproxy] at h
        obtain ⟨-, rfl⟩ := Prod.mk.inj h
        rw [if_pos hloopback]
        exact ⟨proxyLine, hread⟩
  · obtain ⟨-, rfl⟩ := Prod.mk.inj h
    rw [if_neg hloopback]

/-- The login that is read was sent, where its lines are plain. -/
theorem sentCredentials_of_plain {call next : ChannelCall} {ip : Text}
    (hplain : PlainLogin conf remote (delivered call.reads))
    (hfind : findRemoteIp remote call = (.ok ip, next))
    (hsends : SendsCredentials conf next.reads) :
    SentCredentials conf remote (delivered call.reads) := by
  obtain ⟨header, line, data, rest, hsent, hheader, hline, hdata, hascii, hname⟩ := hplain
  have hip := reads_of_ip hfind
  have hisHeader : IsHeader remote header ∧
      delivered next.reads = line ++ (CRLF ++ (data ++ (CRLF ++ rest))) := by
    unfold IsHeader
    split_ifs at hheader hip ⊢
    · obtain ⟨proxy, rfl, hproxy⟩ := hheader
      obtain ⟨proxyLine, hread⟩ := hip
      rw [List.append_assoc] at hsent
      obtain ⟨left, hreadProxy, hleft⟩ := readLine_of_line hsent hproxy
      obtain ⟨-, rfl⟩ := Prod.mk.inj (hread.symm.trans hreadProxy)
      exact ⟨⟨proxy, rfl, not_crlf_of_cr hproxy⟩, hleft⟩
    · rw [hip]
      exact ⟨hheader, by rw [hsent, hheader, List.nil_append]⟩
  obtain ⟨hisHeader, hnext⟩ := hisHeader
  obtain ⟨afterLine, hreadLine, hafterLine⟩ := readLine_of_line hnext hline
  obtain ⟨afterData, hreadData, -⟩ := readLine_of_line hafterLine hdata
  obtain ⟨commandLine, left, password, hcommand, hpassword, hset, hlong, hlogin, hhash⟩ := hsends
  obtain ⟨hsame, rfl⟩ := Prod.mk.inj (hreadLine.symm.trans hcommand)
  obtain rfl := LineRead.line.inj hsame
  obtain rfl := LineRead.line.inj ((congrArg Prod.fst hreadData).symm.trans hpassword)
  obtain ⟨more, hmore⟩ := exists_login_bytes hset hlong (hname _ hlogin)
  refine ⟨header, _, more, data, rest, ?_, hisHeader, ?_, not_crlf_of_cr hdata, hlogin, ?_⟩
  · rw [← hmore]
    exact hsent
  · rw [hmore] at hline
    exact not_crlf_of_cr fun hmem => hline (by simp [hmem])
  · rw [hhash, HashUtil.hashString, Text.getBytes_map_toChar hascii]

end AuthorizationHandler

end Memcarrot
