import Lixy.Control.Commands

/-! The way of a command: `lixyctl` joins its arguments, the control thread splits what it
read and runs the command that the first word names.
-/

namespace Lixy.Control

open ByteStrings

abbrev controlMsgBufLen : Nat := 1024
abbrev controlArgsMax : Nat := 8

-----------------------------------------------------------------------------------------
-- strsplit
-----------------------------------------------------------------------------------------

/-- `*c > ' '` of a signed char -/
def isWord (c : Byte) : Bool := 0x20 < c.toInt

/-- How far a loop moves from the start of `mem`: over the bytes that it goes on at. -/
def advance (goesOn : Byte → Bool) : List Byte → Except Fault Nat
  | [] => .error (.readPast 0)
  | c :: rest =>
      if goesOn c then do
        return (← advance goesOn rest) + 1
      else
        .ok 0

/-- The loop of `strsplit` with room for so many more words: the buffer with NULs behind the
words found, and where they start.
-/
def splitWords (buf : List Byte) (c : Nat) : Nat → Except Fault (List Byte × List Nat)
  | 0 => do
      let _ ← rd buf c
      return (buf, [])
  | room + 1 => do
      if (← rd buf c) = 0 then
        return (buf, [])
      else
        let word ← advance (fun b => b ≠ 0 && isWord b) (buf.drop c)
        let blanks ← advance (fun b => b ≠ 0 && !isWord b) (buf.drop (c + word))
        let buf ← wr buf (c + word) (List.replicate blanks 0)
        let (buf, argv) ← splitWords buf (c + word + blanks) room
        return (buf, c :: argv)

/-- `strsplit`, or nothing where it returns -1 -/
def strsplit (str : List Byte) (maxnum : Nat) : Except Fault (Option (List Byte × List Nat)) := do
  let c ← advance (· == 0x20) str
  let (str, argv) ← splitWords str c maxnum
  if argv.length ≥ maxnum then
    return none
  else
    return some (str, argv)

-----------------------------------------------------------------------------------------
-- The control thread
-----------------------------------------------------------------------------------------

/-- The commands that `install_cmd_node` installs. -/
inductive CmdNode
  | mapserver
  | locator
  | eid
  | listing
  | route
deriving DecidableEq, Repr

/-- The list that `install_cmd_node` builds, with the word for each command. -/
def cmdTuple : List (String × CmdNode) :=
  [("mapserver", .mapserver), ("locator", .locator), ("eid", .eid), ("show", .listing),
    ("route", .route)]

/-- `search_cmd_node` -/
def searchCmdNode (cmd : Option (List Byte)) : Option CmdNode := do
  let cmd ← cmd
  let node ← cmdTuple.find? fun node => cmd == ascii node.1
  return node.2

/-- What a command runs. -/
def CmdNode.func (lib : Library) (junk : Junk) (args : Args) : CmdNode → Command
  | mapserver => configMapServer lib junk args
  | locator => configLocator lib junk args
  | eid => configEid lib junk args
  | listing => fun st => do
      let (res, _, st) ← configShow junk args st
      return (res, st)
  | route => configRoute lib args

/-- The dispatch of `lisp_op_thread` on split words. -/
def execCommand (lib : Library) (junk : Junk) (args : Args) : Command :=
  match searchCmdNode (args 0) with
  | none => answer .errInvalidCommand
  | some node => node.func lib junk args

/-- A command that arrives: what its variables hold, and its words. -/
abbrev Arrival := Junk × List (List Byte)

/-- A command in the control thread, for what it does. -/
def commandStep (lib : Library) (st : Lixyd) (arrival : Arrival) : Except CommandFault Lixyd := do
  let (_, st) ← execCommand lib arrival.1 (arrival.2[·]?) st
  return st

/-- What `read` leaves in the zeroed buffer. -/
def readBuf (msg : List Byte) : List Byte :=
  overlay (List.replicate controlMsgBufLen 0) (msg.take controlMsgBufLen)

/-- The words that a read message is split into, or nothing for an invalid one. -/
def splitMessage (msg : List Byte) : Except Fault (Option (List (List Byte))) := do
  match ← strsplit (readBuf msg) controlArgsMax with
  | none => return none
  | some (buf, argv) => return some (← argv.mapM (rdString buf))

/-- One round of `lisp_op_thread`: the answer to a message. -/
def lispOpThread (lib : Library) (junk : Junk) (msg : List Byte) : Command := fun st => do
  match ← call (splitMessage msg) with
  | none => answer .errInvalidCommand st
  | some words => execCommand lib junk (words[·]?) st

-----------------------------------------------------------------------------------------
-- lixyctl
-----------------------------------------------------------------------------------------

/-- `snprintf` of a string to a buffer of `size` bytes: what fits, and the length it asks
for.
-/
def snprintf (size : Nat) (str : List Byte) : List Byte × Nat := (str.take (size - 1), str.length)

/-- The loop of lixyctl's `main` over the arguments behind the program's name, or nothing
where it quits.
-/
def joinArgs (cmdstr : List Byte) : List (List Byte) → Option (List Byte)
  | [] => some cmdstr
  | arg :: rest =>
      let (cmdbuf, length) := snprintf controlMsgBufLen (cmdstr ++ [0x20] ++ arg)
      if length > controlMsgBufLen then none else joinArgs cmdbuf rest

/-- What lixyctl does with its arguments. -/
inductive Lixyctl
  | usage
  | tooLong
  | sends (cmdstr : List Byte)
deriving DecidableEq

/-- lixyctl's `main` on the arguments behind the program's name -/
def lixyctl (args : List (List Byte)) : Lixyctl :=
  if args.head? ∈ [none, some (ascii "-h"), some (ascii "--help")] then
    .usage
  else
    match joinArgs [] args with
    | none => .tooLong
    | some cmdstr => .sends cmdstr

end Lixy.Control
