import Lixy.Control.Lists
import Lixy.Control.Strings

/-! The configuration kept by instance.c and the commands of control.c that change it. What a
command does depends on name resolution and on what its uninitialised variables hold.
-/

namespace Lixy.Control

open ByteStrings

abbrev lispEidNameLen : Nat := 16
abbrev lispMaxKeylen : Nat := 128
abbrev addrbuflen : Nat := 56

/-- `enum return_type`, as far as a command returns it -/
inductive ReturnType
  | success
  | successNoMessage
  | errFailed
  | errInvalidCommand
  | errInvalidAddress
  | errEidExists
  | errLocatorExists
  | errAddressExists
  | errEidDoesNotExists
  | errLocatorDoesNotExists
  | errAddressDoesNotExists
  | errAuthkeyTooLong
deriving DecidableEq, Repr

/-- An answer that reports an error. -/
def ReturnType.IsError (answer : ReturnType) : Prop :=
  answer ≠ .success ∧ answer ≠ .successNoMessage

/-- `struct eid` -/
structure Eid where
  name : Bytes lispEidNameLen
  authkey : Bytes lispMaxKeylen
  prefixTuple : ListT Prefix

/-- `struct lisp`, as far as commands read and change it -/
structure Lixyd where
  eidTuple : ListT Eid
  locTuple : ListT Locator
  mapsrvTuple : ListT SockaddrStorage
  lisp : Lisp

/-- The daemon after start. -/
def Lixyd.start : Lixyd :=
  { eidTuple := createList, locTuple := createList, mapsrvTuple := createList, lisp := .start }

-----------------------------------------------------------------------------------------
-- Name resolution
-----------------------------------------------------------------------------------------

/-- A socket address that `getaddrinfo` returns. -/
inductive AiAddr
  | inet (port : Nat) (sinAddr : Bytes 4) (sinZero : Bytes 8)
  | inet6 (port : Nat) (flowinfo : Bytes 4) (sin6Addr : Bytes 16) (scopeId : Bytes 4)
deriving DecidableEq

/-- `ai_family` -/
def AiAddr.family : AiAddr → Nat
  | inet .. => afInet
  | inet6 .. => afInet6

/-- `memcpy` of a returned address: what is behind it stays. -/
def AiAddr.copyTo (old : SockaddrStorage) : AiAddr → SockaddrStorage
  | inet port sinAddr sinZero =>
      { family := afInet, port, sinAddr, rest := old.rest
        sin6Addr := ⟨sinZero.toList ++ old.sin6Addr.toList.drop 8, by simp⟩ }
  | inet6 port flowinfo sin6Addr scopeId =>
      { family := afInet6, port, sinAddr := flowinfo, sin6Addr
        rest := ⟨scopeId.toList ++ old.rest.toList.drop 4, by simp⟩ }

/-- The functions of the C library that the commands leave to it. -/
structure Library where
  /-- The first address of a name and a port, for any family and UDP. -/
  getaddrinfo : Option (List Byte) → Nat → Option AiAddr
  inetPton6 : List Byte → Option (Bytes 16)

/-- What a command finds in its uninitialised variables and in freed memory. -/
structure Junk where
  sockaddr : SockaddrStorage
  addrbuf : Bytes addrbuflen
  state : Int
  /-- What is read at a returned address after `freeaddrinfo`. -/
  freed : AiAddr → AiAddr

/-- What a command does to the daemon, with its answer. -/
abbrev Command := Lixyd → Except CommandFault (ReturnType × Lixyd)

/-- A command that ends without a change. -/
def answer (res : ReturnType) : Command := fun st => .ok (res, st)

-----------------------------------------------------------------------------------------
-- Map servers
-----------------------------------------------------------------------------------------

/-- `set_lisp_mapserver`, or nothing where it returns -1 -/
def setLispMapserver (mapsrv : SockaddrStorage) (st : Lixyd) : Option Lixyd :=
  if mapsrv.family ≠ afInet ∧ mapsrv.family ≠ afInet6 then
    none
  else
    some { st with mapsrvTuple := appendListnode st.mapsrvTuple mapsrv }

/-- `unset_lisp_mapserver`; whole socket addresses are compared. -/
def unsetLispMapserver (mapsrv : SockaddrStorage) (st : Lixyd) : Option Lixyd :=
  (searchListnode st.mapsrvTuple (· == mapsrv)).map fun (place, _) =>
    { st with mapsrvTuple := deleteListnode st.mapsrvTuple place }

section

variable (lib : Library) (junk : Junk) (args : Args)

/-- `cmd_set_map_server` -/
def cmdSetMapServer : Command := fun st =>
  match lib.getaddrinfo (args 1) lispControlPort with
  | none => answer .errInvalidAddress st
  | some res =>
      match setLispMapserver (res.copyTo junk.sockaddr) st with
      | none => answer .errInvalidAddress st
      | some st' => answer .success st'

/-- `cmd_delete_map_server` -/
def cmdDeleteMapServer : Command := fun st =>
  match lib.getaddrinfo (args 1) lispControlPort with
  | none => answer .errInvalidAddress st
  | some res =>
      match unsetLispMapserver (res.copyTo junk.sockaddr) st with
      | none => answer .errInvalidAddress st
      | some st' => answer .success st'

/-- `config_map_server` -/
def configMapServer : Command := fun st => do
  if args 2 = none then
    cmdSetMapServer lib junk args st
  else if ← strcmp (args 2) "delete" then
    cmdDeleteMapServer lib junk args st
  else
    answer .errInvalidCommand st

end

-----------------------------------------------------------------------------------------
-- Locators
-----------------------------------------------------------------------------------------

/-- `COMPARE_SOCKADDR` -/
def compareSockaddr (s1 s2 : SockaddrStorage) : Bool :=
  if s1.family ≠ s2.family then
    false
  else if s1.family = afInet then
    s1.sinAddr == s2.sinAddr
  else
    s1.sin6Addr == s2.sin6Addr

/-- `search_locator`, with `compare_locator` -/
def searchLocator (locAddr : SockaddrStorage) (st : Lixyd) : Option (Nat × Locator) :=
  searchListnode st.locTuple fun loc => compareSockaddr locAddr loc.locAddr

/-- `set_lisp_locator` -/
def setLispLocator (loc : Locator) (st : Lixyd) : Lixyd :=
  { st with locTuple := appendListnode st.locTuple loc }

/-- `unset_lisp_locator`, or nothing where it returns -1 -/
def unsetLispLocator (locAddr : SockaddrStorage) (st : Lixyd) : Option Lixyd :=
  (searchListnode st.locTuple fun loc => compareSockaddr loc.locAddr locAddr).map
    fun (place, _) => { st with locTuple := deleteListnode st.locTuple place }

/-- A parameter of a locator. -/
inductive LocatorParam
  | priority
  | weight
  | mPriority
  | mWeight
deriving DecidableEq, Repr

/-- The name of a parameter. -/
def LocatorParam.name : LocatorParam → String
  | priority => "priority"
  | weight => "weight"
  | mPriority => "m_priority"
  | mWeight => "m_weight"

/-- Assign a parameter; an int is cut to the 8 bits of the field. -/
def setParam (loc : Locator) (param : LocatorParam) (value : BitVec 32) : Locator :=
  match param with
  | .priority => { loc with priority := value.setWidth 8 }
  | .weight => { loc with weight := value.setWidth 8 }
  | .mPriority => { loc with mPriority := value.setWidth 8 }
  | .mWeight => { loc with mWeight := value.setWidth 8 }

section

variable (lib : Library) (junk : Junk) (args : Args)

/-- `cmd_create_locator` -/
def cmdCreateLocator : Command := fun st =>
  match lib.getaddrinfo (args 1) lispControlPort with
  | none => answer .errInvalidAddress st
  | some res =>
      let loc : Locator := { Locator.zero with locAddr := res.copyTo .zero }
      match searchLocator loc.locAddr st with
      | some _ => answer .errLocatorExists st
      | none => answer .success (setLispLocator loc st)

/-- `cmd_delete_locator` -/
def cmdDeleteLocator : Command := fun st =>
  match lib.getaddrinfo (args 1) lispControlPort with
  | none => answer .errInvalidAddress st
  | some res =>
      match unsetLispLocator (res.copyTo junk.sockaddr) st with
      | none => answer .errLocatorDoesNotExists st
      | some st' => answer .success st'

/-- The chain of `strcmp` that names a parameter. -/
def locatorParam (param : Option (List Byte))
    : Except CommandFault (Option LocatorParam) := do
  if ← strcmp param LocatorParam.priority.name then
    return some .priority
  else if ← strcmp param LocatorParam.weight.name then
    return some .weight
  else if ← strcmp param LocatorParam.mPriority.name then
    return some .mPriority
  else if ← strcmp param LocatorParam.mWeight.name then
    return some .mWeight
  else
    return none

/-- `cmd_set_locator_paramater`; the address is copied after it was freed. -/
def cmdSetLocatorParamater : Command := fun st => do
  if args 1 = none ∨ args 2 = none ∨ args 3 = none then
    answer .errInvalidCommand st
  else
    match lib.getaddrinfo (args 1) lispControlPort with
    | none => answer .errInvalidAddress st
    | some res =>
        match searchLocator ((junk.freed res).copyTo junk.sockaddr) st with
        | none => answer .errLocatorDoesNotExists st
        | some (place, loc) =>
            match ← locatorParam (args 2) with
            | none => answer .errInvalidCommand st
            | some param =>
                let value := atoi (← present (args 3))
                answer .success
                  { st with locTuple := st.locTuple.write place (setParam loc param value) }

/-- `config_locator` -/
def configLocator : Command := fun st => do
  if args 1 = none ∨ args 2 = none then
    answer .errInvalidCommand st
  else if ← strcmp (args 2) "create" then
    cmdCreateLocator lib args st
  else if ← strcmp (args 2) "delete" then
    cmdDeleteLocator lib junk args st
  else
    cmdSetLocatorParamater lib junk args st

end

end Lixy.Control
