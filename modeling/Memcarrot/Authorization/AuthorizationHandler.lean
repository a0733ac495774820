import Mathlib.Logic.Function.Basic
import Memcarrot.Util.Attempts
import Memcarrot.Util.HashUtil
import Memcarrot.Util.Utils

namespace Memcarrot

/-- What one round of the loop of `readLine` meets: a read of the channel into the buffer of one
byte, which may be without a byte, at the end of the stream or an IOException, or the timeout. -/
inductive ChannelRead where
  | byte (b : UInt8)
  | nothing
  | endOfStream
  | ioException
  | timeout
  deriving DecidableEq, Repr

/-- `(char) b` of a byte, which is signed. -/
def toChar (b : UInt8) : Char := Char.ofNat (if b < 0x80 then b.toNat else 0xFF00 + b.toNat)

/-- How `readLine` ends: with a line, with null, or with an IOException. -/
inductive LineRead where
  | line (text : Text)
  | null
  | ioException
  deriving DecidableEq, Repr

/-- The loop of `readLine`, with what is left to be met on the channel. -/
def readLineLoop (gotCR : Bool) (line : Text) : List ChannelRead → LineRead × List ChannelRead
  | [] => (.ioException, [])
  | .timeout :: reads => (.ioException, reads)
  | .ioException :: reads => (.ioException, reads)
  | .endOfStream :: reads => (.null, reads)
  | .nothing :: reads => readLineLoop gotCR line reads
  | .byte b :: reads =>
    if toChar b = '\r' then readLineLoop true line reads
    else if gotCR ∧ toChar b = '\n' then (.line line, reads)
    else readLineLoop gotCR (line ++ [toChar b]) reads

def readLine (reads : List ChannelRead) : LineRead × List ChannelRead :=
  readLineLoop false [] reads

/-- The address of the other end of a channel. -/
structure RemoteAddress where
  isLoopbackAddress : Bool
  hostString : Text
  deriving DecidableEq, Repr

/-- The configured login name and hash, and what hashes a password. -/
structure AuthorizationConf where
  userLoginName : Option Text
  userPasswordSHA256 : Option Text
  hashUtil : HashUtil

/-- A channel in a call of `authorizeConnection`, with the hosts that are authorized: whether its
address can be asked for, what is met on it, what the attempts to write to it do, and whether it is
open. The bytes that were written and the address that stands for the channel, once it is found, are
kept as well. -/
structure ChannelCall where
  addressFails : Bool := false
  reads : List ChannelRead := []
  writes : List Attempt := []
  isOpen : Bool := true
  authHosts : Text → Bool
  written : List UInt8 := []
  remoteIp : Option Text := none

namespace ChannelCall

def readLine (call : ChannelCall) : LineRead × ChannelCall :=
  let (line, reads) := Memcarrot.readLine call.reads
  (line, { call with reads })

/-- Whether the string is written without an IOException. -/
def writeString (data : String) (call : ChannelCall) : Bool × ChannelCall :=
  let (done, taken, writes) := Attempt.writeAll (Text.getBytes data.toList) call.writes
  (done, { call with writes, written := call.written ++ taken })

def sendErrorAndClose (errorMsg : String) (call : ChannelCall) : ChannelCall :=
  match call.writeString errorMsg with
  | (true, call) => { call with isOpen := false }
  | (false, call) => call

end ChannelCall

/-- How the try block of `authorizeConnection` is left: it returns, after `sendErrorAndClose` with a
message or without it, or by an IOException. -/
inductive Leave where
  | returns (result : Bool)
  | refuses (errorMsg : String)
  | ioException
  deriving DecidableEq, Repr

namespace AuthorizationHandler

def REQUIRED : String := "CLIENT_ERROR Authorization required\r\n"

def FAILED : String := "CLIENT_ERROR Authorization failed\r\n"

def NOT_CONFIGURED : String := "SERVER_ERROR Authorization not configured\r\n"

/-- The remote IP in a PROXY header. -/
def proxyIp (proxyLine : Text) : Option Text :=
  if proxyLine.startsWith "PROXY ".toList then
    let proxyTokens := proxyLine.split
    if proxyTokens.length < 6 then none else proxyTokens[2]?
  else none

/-- Steps 1 and 2: the remote IP, or how the block is left. -/
def findRemoteIp (remote : RemoteAddress) (call : ChannelCall) : Except Leave Text × ChannelCall :=
  if call.addressFails then (.error .ioException, call)
  else if remote.isLoopbackAddress then
    match call.readLine with
    | (.ioException, call) => (.error .ioException, call)
    | (.null, call) => (.error (.refuses REQUIRED), call)
    | (.line proxyLine, call) =>
      match proxyIp proxyLine with
      | none => (.error (.refuses REQUIRED), call)
      | some ip => (.ok ip, { call with remoteIp := some ip })
  else (.ok remote.hostString, { call with remoteIp := some remote.hostString })

/-- The test of the login name and the hash of the password, with what follows it. -/
def verify (conf : AuthorizationConf) (remoteIp username password : Text) (noreply : Bool)
    (call : ChannelCall) : Leave × ChannelCall :=
  match conf.userLoginName, conf.userPasswordSHA256 with
  | some loginName, some hashedPassword =>
    if username = loginName ∧ conf.hashUtil.hashString password = hashedPassword then
      let call := { call with authHosts := Function.update call.authHosts remoteIp true }
      if noreply then (.returns true, call)
      else
        match call.writeString "STORED\r\n" with
        | (true, call) => (.returns true, call)
        | (false, call) => (.ioException, call)
    else (.refuses FAILED, call)
  | _, _ => (.refuses NOT_CONFIGURED, call)

/-- Step 3 and what follows it, for a host that is not authorized. -/
def login (conf : AuthorizationConf) (remoteIp : Text) (call : ChannelCall) :
    Leave × ChannelCall :=
  match call.readLine with
  | (.ioException, call) => (.ioException, call)
  | (.null, call) => (.refuses REQUIRED, call)
  | (.line commandLine, call) =>
    if commandLine.startsWith "set ".toList then
      let cmdTokens := commandLine.split
      if cmdTokens.length < 5 then (.refuses REQUIRED, call)
      else
        let noreply := cmdTokens.length = 6 ∧ cmdTokens[5]? = some "noreply".toList
        match call.readLine with
        | (.ioException, call) => (.ioException, call)
        | (.null, call) => (.refuses REQUIRED, call)
        | (.line password, call) =>
          verify conf remoteIp (cmdTokens.getD 1 []) password noreply call
    else (.refuses REQUIRED, call)

/-- The try block of `authorizeConnection`. -/
def attempt (conf : AuthorizationConf) (remote : RemoteAddress) (call : ChannelCall) :
    Leave × ChannelCall :=
  match findRemoteIp remote call with
  | (.error leave, call) => (leave, call)
  | (.ok remoteIp, call) =>
    if call.authHosts remoteIp then (.returns false, call) else login conf remoteIp call

end AuthorizationHandler

/-- The maps of the handler and its channels. The address that stood for a channel in the last call
for it, the bytes that were written to it, and the channels that were ever added are kept as
well. -/
structure AuthorizationHandler (κ : Type) where
  pendingConns : κ → Bool := fun _ => false
  authHosts : Text → Bool := fun _ => false
  isOpen : κ → Bool := fun _ => true
  remoteIp : κ → Option Text := fun _ => none
  written : κ → List UInt8 := fun _ => []
  added : κ → Bool := fun _ => false

namespace AuthorizationHandler

variable {κ : Type} [DecidableEq κ]

def addPendingConnection (channel : κ) (st : AuthorizationHandler κ) : AuthorizationHandler κ :=
  { st with
    pendingConns := Function.update st.pendingConns channel true
    added := Function.update st.added channel true }

/-- What a call meets on its channel. -/
structure Script where
  addressFails : Bool := false
  reads : List ChannelRead := []
  writes : List Attempt := []
  deriving DecidableEq, Repr

/-- A channel at the start of a call. -/
def start (st : AuthorizationHandler κ) (channel : κ) (script : Script) : ChannelCall :=
  { addressFails := script.addressFails
    reads := script.reads
    writes := script.writes
    isOpen := st.isOpen channel
    authHosts := st.authHosts
    written := st.written channel }

/-- The handler after the finally block of a call. -/
def finish (st : AuthorizationHandler κ) (channel : κ) (call : ChannelCall) :
    AuthorizationHandler κ :=
  { st with
    pendingConns := Function.update st.pendingConns channel false
    authHosts := call.authHosts
    isOpen := Function.update st.isOpen channel call.isOpen
    remoteIp := Function.update st.remoteIp channel call.remoteIp
    written := Function.update st.written channel call.written }

def authorizeConnection (conf : AuthorizationConf) (remote : κ → RemoteAddress) (channel : κ)
    (script : Script) (st : AuthorizationHandler κ) : Bool × AuthorizationHandler κ :=
  if st.pendingConns channel then
    match attempt conf (remote channel) (st.start channel script) with
    | (.returns result, call) => (result, st.finish channel call)
    | (.refuses errorMsg, call) => (true, st.finish channel (call.sendErrorAndClose errorMsg))
    | (.ioException, call) => (true, st.finish channel (call.sendErrorAndClose REQUIRED))
  else (false, st)

/-- A call of the handler, or a channel is closed by another part of the program. -/
inductive Event (κ : Type) where
  | addPendingConnection (channel : κ)
  | authorizeConnection (channel : κ) (script : Script)
  | close (channel : κ)

/-- The handler after an event, each of which is always possible. -/
def step (conf : AuthorizationConf) (remote : κ → RemoteAddress) (st : AuthorizationHandler κ) :
    Event κ → Option (AuthorizationHandler κ)
  | .addPendingConnection channel => some (st.addPendingConnection channel)
  | .authorizeConnection channel script =>
    some (st.authorizeConnection conf remote channel script).2
  | .close channel => some { st with isOpen := Function.update st.isOpen channel false }

end AuthorizationHandler

end Memcarrot
