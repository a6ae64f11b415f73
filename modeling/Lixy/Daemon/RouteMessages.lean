import Lixy.Foundation.Attributes
import Lixy.MapTable.Operations
import Lixy.Messages.Layouts
import Lixy.Messages.Records

/-! The netlink messages of `op_route_to_dev`: what it asks the kernel for, and that a kernel that
goes by the messages keeps the routes that the daemon is modelled with.
-/

namespace Lixy

open ByteStrings
open Attributes (Attribute ByteOrder align encode walk)

-----------------------------------------------------------------------------------------
-- linux/netlink.h and linux/rtnetlink.h
-----------------------------------------------------------------------------------------

abbrev rtmNewroute : Nat := 24
abbrev rtmDelroute : Nat := 25

abbrev nlmFRequest : Nat := 0x1
abbrev nlmFExcl : Nat := 0x200
abbrev nlmFCreate : Nat := 0x400

abbrev rtTableMain : Byte := 254
abbrev rtprotBoot : Byte := 3
abbrev rtScopeUniverse : Byte := 0
abbrev rtScopeNowhere : Byte := 255
abbrev rtnUnicast : Byte := 1

abbrev rtaDst : Nat := 1
abbrev rtaOif : Nat := 4

abbrev sizeofNlmsghdr : Nat := 16
abbrev sizeofRtmsg : Nat := 12

/-- `struct nlmsghdr` -/
structure Nlmsghdr where
  nlmsgLen : Nat
  nlmsgType : Nat
  nlmsgFlags : Nat
  nlmsgSeq : Nat
  nlmsgPid : Nat

/-- `struct rtmsg` -/
structure Rtmsg where
  rtmFamily : Byte
  rtmDstLen : Byte
  rtmSrcLen : Byte
  rtmTos : Byte
  rtmTable : Byte
  rtmProtocol : Byte
  rtmScope : Byte
  rtmType : Byte
  rtmFlags : Nat

/-- The header in memory. -/
def Nlmsghdr.bytes (order : ByteOrder) (nh : Nlmsghdr) : List Byte :=
  order.put32 nh.nlmsgLen ++ order.put16 nh.nlmsgType ++ order.put16 nh.nlmsgFlags
    ++ order.put32 nh.nlmsgSeq ++ order.put32 nh.nlmsgPid

/-- The route message in memory. -/
def Rtmsg.bytes (order : ByteOrder) (rt : Rtmsg) : List Byte :=
  [rt.rtmFamily, rt.rtmDstLen, rt.rtmSrcLen, rt.rtmTos, rt.rtmTable, rt.rtmProtocol,
    rt.rtmScope, rt.rtmType] ++ order.put32 rt.rtmFlags

@[simp]
theorem Nlmsghdr.bytes_length (order : ByteOrder) (nh : Nlmsghdr)
    : (nh.bytes order).length = sizeofNlmsghdr := by
  simp [bytes]

@[simp]
theorem Rtmsg.bytes_length (order : ByteOrder) (rt : Rtmsg)
    : (rt.bytes order).length = sizeofRtmsg := by
  simp [bytes]

-----------------------------------------------------------------------------------------
-- Requests
-----------------------------------------------------------------------------------------

/-- The request that a function of instance.c puts together. -/
structure RouteRequest where
  nh : Nlmsghdr
  rt : Rtmsg
  buf : List Byte

/-- The request after `memset (&req, 0, sizeof (req))`. -/
def RouteRequest.zero : RouteRequest where
  nh := ⟨0, 0, 0, 0, 0⟩
  rt := ⟨0, 0, 0, 0, 0, 0, 0, 0, 0⟩
  buf := List.replicate 1024 0

/-- The request in memory. -/
def RouteRequest.bytes (order : ByteOrder) (req : RouteRequest) : List Byte :=
  req.nh.bytes order ++ req.rt.bytes order ++ req.buf

/-- An attribute is written at `NLMSG_ALIGN (req.nh.nlmsg_len)`, and counted. -/
def RouteRequest.attach (order : ByteOrder) (rtaType : Nat) (data : List Byte)
    (req : RouteRequest)
    : Except Fault RouteRequest := do
  let rta := align req.nh.nlmsgLen
  let rtaLen := 4 + data.length
  let buf ← wr req.buf (rta - (sizeofNlmsghdr + sizeofRtmsg))
    (order.put16 rtaLen ++ order.put16 rtaType ++ data)
  return { req with nh := { req.nh with nlmsgLen := rta + rtaLen }, buf }

/-- The request for an operation, with the fields that the operations differ in; nothing for an
operation that is none.
-/
def routeHeader (op af prefixlen : Nat) : Option RouteRequest :=
  let nh : Nlmsghdr :=
    { RouteRequest.zero.nh with nlmsgLen := sizeofNlmsghdr + sizeofRtmsg, nlmsgType := op }
  let rt : Rtmsg :=
    { RouteRequest.zero.rt with
        rtmFamily := BitVec.ofNat 8 af, rtmTable := rtTableMain
        rtmDstLen := BitVec.ofNat 8 prefixlen }
  if op = rtmNewroute then
    some { RouteRequest.zero with
      nh := { nh with nlmsgFlags := nlmFRequest ||| nlmFCreate ||| nlmFExcl }
      rt := { rt with
        rtmProtocol := rtprotBoot, rtmScope := rtScopeUniverse, rtmType := rtnUnicast } }
  else if op = rtmDelroute then
    some { RouteRequest.zero with
      nh := { nh with nlmsgFlags := nlmFRequest }
      rt := { rt with rtmScope := rtScopeNowhere } }
  else
    none

/-- `addrlen`, for a family -/
def addrlenOf (af : Nat) : Nat := if af = afInet then 4 else 16

/-- `op_route_to_dev`, on a host with the byte order and where the device has the index: the
message that it sends, or nothing where it returns before that.
-/
def opRouteToDev (order : ByteOrder) (tunifindex op af : Nat) (addr : List Byte)
    (prefixlen : Nat)
    : Except Fault (Option (List Byte)) := do
  let addrlen := addrlenOf af
  if tunifindex < 1 then
    return none
  else
    match routeHeader op af prefixlen with
    | none => return none
    | some req =>
        let dst ← rdBytes addr 0 addrlen
        let req ← req.attach order rtaDst dst.toList
        let req ← req.attach order rtaOif (order.put32 tunifindex)
        return some ((req.bytes order).take req.nh.nlmsgLen)

/-- What `add_route_to_tun` sends for a prefix. -/
def addRouteMessage (order : ByteOrder) (tunifindex : Nat) (pfx : Prefix)
    : Except Fault (Option (List Byte)) :=
  opRouteToDev order tunifindex rtmNewroute pfx.family pfx.add.toList pfx.bitlen

/-- What `del_route_to_tun` sends for a prefix. -/
def delRouteMessage (order : ByteOrder) (tunifindex : Nat) (pfx : Prefix)
    : Except Fault (Option (List Byte)) :=
  opRouteToDev order tunifindex rtmDelroute pfx.family pfx.add.toList pfx.bitlen

-----------------------------------------------------------------------------------------
-- A kernel that goes by the messages
-----------------------------------------------------------------------------------------

/-- What a receiver reads in a route message: the operation, the route and the device. The length
that the header tells must be that of the message.
-/
def readRouteMessage (order : ByteOrder) (m : List Byte) : Option (Nat × Route × Nat) := do
  guard (order.get (m.take 4) = m.length)
  let attrs := walk order m.length (m.drop (sizeofNlmsghdr + sizeofRtmsg))
  let dst ← attrs.lookup rtaDst
  let oif ← attrs.lookup rtaOif
  return (order.get ((m.drop 4).take 2),
    { family := (byteAt m sizeofNlmsghdr).toNat, dst
      dstLen := (byteAt m (sizeofNlmsghdr + 1)).toNat },
    order.get oif)

/-- A kernel that goes by the route messages for a device: one that asks for a route adds it
unless it is there, and one that asks for its removal removes it. What other messages do is left
open.
-/
structure GoesBy (order : ByteOrder) (device : Nat) (kernel : List Route → List Byte → List Route)
    : Prop where
  adds
    : ∀ routes m route, readRouteMessage order m = some (rtmNewroute, route, device)
      → kernel routes m = if route ∈ routes then routes else route :: routes
  removes
    : ∀ routes m route, readRouteMessage order m = some (rtmDelroute, route, device)
      → kernel routes m = routes.filter (· ≠ route)

/-- A kernel with the device alone, for testing. -/
def kernelRoutes (order : ByteOrder) (device : Nat) (routes : List Route) (m : List Byte)
    : List Route :=
  match readRouteMessage order m with
  | none => routes
  | some (op, route, oif) =>
      if oif ≠ device then
        routes
      else if op = rtmNewroute then
        if route ∈ routes then routes else route :: routes
      else if op = rtmDelroute then
        routes.filter (· ≠ route)
      else
        routes

/-- The kernel for testing goes by the messages. -/
theorem kernelRoutes_goesBy (order : ByteOrder) (device : Nat)
    : GoesBy order device (kernelRoutes order device) where
  adds := fun _ _ _ read => by simp [kernelRoutes, read]
  removes := fun _ _ _ read => by simp [kernelRoutes, read]

/-- A message that is read tells its length. -/
theorem readRouteMessage_length {order : ByteOrder} {m : List Byte} {read : Nat × Route × Nat}
    (done : readRouteMessage order m = some read)
    : order.get (m.take 4) = m.length := by
  unfold readRouteMessage at done
  by_contra other
  rw [guard, if_neg other] at done
  cases done

-----------------------------------------------------------------------------------------
-- The message
-----------------------------------------------------------------------------------------

section

variable {order : ByteOrder}

/-- The request holds the attributes, and nothing behind them. -/
structure RouteRequest.Holds (order : ByteOrder) (attrs : List Attribute) (req : RouteRequest)
    : Prop where
  len : req.nh.nlmsgLen = sizeofNlmsghdr + sizeofRtmsg + (encode order attrs).length
  buf : req.buf = overlay (List.replicate 1024 0) (encode order attrs)

/-- Attaching adds an attribute, where there is room and the data end at a multiple of four. -/
theorem RouteRequest.Holds.attach {attrs : List Attribute} {req : RouteRequest}
    (h : req.Holds order attrs) (a : Attribute) (aligned : a.data.length % 4 = 0)
    (room : (encode order (attrs ++ [a])).length ≤ 1024)
    : ∃ req', req.attach order a.type a.data = .ok req' ∧ req'.Holds order (attrs ++ [a])
        ∧ req'.rt = req.rt ∧ req'.nh.nlmsgType = req.nh.nlmsgType
        ∧ req'.nh.nlmsgFlags = req.nh.nlmsgFlags := by
  have grown : encode order (attrs ++ [a]) = encode order attrs ++ a.body order := by
    rw [encode, List.flatMap_append, List.flatMap_singleton, a.bytes_eq_body aligned]
    rfl
  have start : align req.nh.nlmsgLen
      = sizeofNlmsghdr + sizeofRtmsg + (encode order attrs).length := by
    have even := @Attributes.encode_length_mod order attrs
    rw [align, h.len]
    simp only [sizeofNlmsghdr, sizeofRtmsg]
    omega
  have written : wr req.buf (align req.nh.nlmsgLen - (sizeofNlmsghdr + sizeofRtmsg)) (a.body order)
      = .ok (overlay (List.replicate 1024 0) (encode order (attrs ++ [a]))) := by
    rw [grown] at room ⊢
    rw [start, h.buf, Nat.add_sub_cancel_left]
    exact wr_overlay (by rwa [List.length_replicate])
  have done : req.attach order a.type a.data
      = .ok { req with
          nh := { req.nh with nlmsgLen := align req.nh.nlmsgLen + (4 + a.data.length) }
          buf := overlay (List.replicate 1024 0) (encode order (attrs ++ [a])) } := by
    simp only [RouteRequest.attach]
    change (wr req.buf _ (a.body order) >>= _) = _
    rw [written]
    rfl
  refine ⟨_, done, ⟨?_, rfl⟩, rfl, rfl, rfl⟩
  dsimp only
  rw [start, grown, List.length_append, a.body_length, Attribute.length]
  omega

/-- The bytes of a request that are sent. -/
theorem RouteRequest.Holds.message {attrs : List Attribute} {req : RouteRequest}
    (h : req.Holds order attrs)
    : (req.bytes order).take req.nh.nlmsgLen
      = req.nh.bytes order ++ (req.rt.bytes order ++ encode order attrs) := by
  have headers : (req.nh.bytes order ++ req.rt.bytes order).length
      = sizeofNlmsghdr + sizeofRtmsg := by
    rw [List.length_append, Nlmsghdr.bytes_length, Rtmsg.bytes_length]
  rw [RouteRequest.bytes, h.len, ← headers, h.buf, overlay, List.take_length_add_append,
    List.take_left, List.append_assoc]

/-- What a receiver reads in a message with the headers and the attributes. -/
theorem readRouteMessage_message {nh : Nlmsghdr} {rt : Rtmsg} {attrs : List Attribute}
    (len : nh.nlmsgLen = sizeofNlmsghdr + sizeofRtmsg + (encode order attrs).length)
    (fits : nh.nlmsgLen < 4294967296) (typeFits : nh.nlmsgType < 65536)
    (few : attrs.length ≤ 28)
    : readRouteMessage order (nh.bytes order ++ (rt.bytes order ++ encode order attrs))
      = (do
          let dst ← (attrs.map fun a => (a.type, a.data)).lookup rtaDst
          let oif ← (attrs.map fun a => (a.type, a.data)).lookup rtaOif
          return (nh.nlmsgType,
            { family := rt.rtmFamily.toNat, dst, dstLen := rt.rtmDstLen.toNat },
            order.get oif)) := by
  have size : (nh.bytes order ++ (rt.bytes order ++ encode order attrs)).length = nh.nlmsgLen := by
    rw [List.length_append, List.length_append, Nlmsghdr.bytes_length, Rtmsg.bytes_length, len]
    omega
  have told : (nh.bytes order ++ (rt.bytes order ++ encode order attrs)).take 4
      = order.put32 nh.nlmsgLen := by
    simp only [Nlmsghdr.bytes, List.append_assoc]
    exact List.take_left' (order.put32_length _)
  have type : ((nh.bytes order ++ (rt.bytes order ++ encode order attrs)).drop 4).take 2
      = order.put16 nh.nlmsgType := by
    simp only [Nlmsghdr.bytes, List.append_assoc]
    rw [List.drop_left' (order.put32_length _), List.take_left' (order.put16_length _)]
  have behind : (nh.bytes order ++ (rt.bytes order ++ encode order attrs)).drop
      (sizeofNlmsghdr + sizeofRtmsg) = encode order attrs := by
    rw [← List.append_assoc]
    exact List.drop_left' (by simp)
  have family : byteAt (nh.bytes order ++ (rt.bytes order ++ encode order attrs)) sizeofNlmsghdr
      = rt.rtmFamily := by
    rw [byteAt, List.getD_eq_getElem?_getD, List.getElem?_append_right (by simp),
      Nlmsghdr.bytes_length]
    rfl
  have dstLen
      : byteAt (nh.bytes order ++ (rt.bytes order ++ encode order attrs)) (sizeofNlmsghdr + 1)
        = rt.rtmDstLen := by
    rw [byteAt, List.getD_eq_getElem?_getD, List.getElem?_append_right (by simp),
      Nlmsghdr.bytes_length]
    rfl
  have attributes : walk order nh.nlmsgLen (encode order attrs)
      = attrs.map fun a => (a.type, a.data) := by
    refine Attributes.walk_encode ?_
    simp only [sizeofNlmsghdr, sizeofRtmsg] at len
    omega
  rw [readRouteMessage, told, size, order.get_put32 fits, type, order.get_put16 typeFits, behind,
    family, dstLen, attributes]
  simp only [guard, if_true, pure_bind]

/-- A first attribute is the destination. -/
theorem RouteRequest.Holds.attachDst {req : RouteRequest} (empty : req.Holds order [])
    {addr : List Byte} (sized : addr.length = 16) (af : Nat)
    : ∃ (bs : Bytes (addrlenOf af)) (dst : Attribute) (req' : RouteRequest),
        rdBytes addr 0 (addrlenOf af) = .ok bs ∧ req.attach order rtaDst bs.toList = .ok req'
        ∧ req'.Holds order [dst] ∧ (dst.type, dst.data) = (rtaDst, addr.take (addrlenOf af))
        ∧ (encode order [dst]).length ≤ 20 ∧ req'.rt = req.rt
        ∧ req'.nh.nlmsgType = req.nh.nlmsgType := by
  obtain ⟨n, addrlen, sizes⟩ : ∃ n, addrlenOf af = n ∧ (n = 4 ∨ n = 16) := by
    refine ⟨_, rfl, ?_⟩
    unfold addrlenOf
    split
    · exact .inl rfl
    · exact .inr rfl
  have whole : (addr.take n).length = n := by
    rw [List.length_take]
    omega
  let dst : Attribute := ⟨rtaDst, addr.take n, by decide, by omega⟩
  have data : rdBytes addr 0 n = .ok ⟨addr.take n, whole⟩ :=
    rdBytes_eq_ok.mpr (by rw [slice, dif_pos (by omega)]; rfl)
  have size : (encode order [dst]).length ≤ 20 := by
    simp only [encode, List.flatMap_cons, List.flatMap_nil, List.append_nil,
      Attribute.bytes_length, Attribute.length, dst, whole, align]
    omega
  obtain ⟨req', attached, holds, rt, type, _⟩ :=
    empty.attach dst (by simp only [dst, whole]; omega) (by rw [List.nil_append]; omega)
  rw [addrlen]
  exact ⟨_, dst, req', data, attached, holds, rfl, size, rt, type⟩

/-- The message of an operation is read as what was asked for. -/
theorem opRouteToDev_reads {op af prefixlen tunifindex : Nat} {addr : List Byte}
    (op_ : op = rtmNewroute ∨ op = rtmDelroute) (device : 1 ≤ tunifindex)
    (small : tunifindex < 4294967296) (family : af < 256) (length : prefixlen < 256)
    (sized : addr.length = 16)
    : ∃ m, opRouteToDev order tunifindex op af addr prefixlen = .ok (some m)
        ∧ readRouteMessage order m
          = some (op,
              { family := af, dst := addr.take (addrlenOf af), dstLen := prefixlen },
              tunifindex) := by
  obtain ⟨req, header, type, rtmFamily, rtmDstLen, empty⟩ : ∃ req,
      routeHeader op af prefixlen = some req ∧ req.nh.nlmsgType = op
      ∧ req.rt.rtmFamily = BitVec.ofNat 8 af ∧ req.rt.rtmDstLen = BitVec.ofNat 8 prefixlen
      ∧ req.Holds order [] := by
    rcases op_ with rfl | rfl
    · exact ⟨_, rfl, rfl, rfl, rfl, rfl, rfl⟩
    · exact ⟨_, rfl, rfl, rfl, rfl, rfl, rfl⟩
  obtain ⟨bs, dst, req₁, data, attached₁, holds₁, known, size, rt₁, type₁⟩ :=
    empty.attachDst sized af
  let oif : Attribute := ⟨rtaOif, order.put32 tunifindex, by decide, by simp⟩
  have sizeBoth : (encode order [dst, oif]).length = (encode order [dst]).length + 8 := by
    simp only [encode, List.flatMap_cons, List.flatMap_nil, List.append_nil, List.length_append,
      Attribute.bytes_length, Attribute.length, oif, ByteOrder.put32_length]
    rfl
  obtain ⟨req₂, attached₂, holds₂, rt₂, type₂, _⟩ :=
    holds₁.attach oif (by simp [oif]) (by rw [List.singleton_append, sizeBoth]; omega)
  rw [List.singleton_append] at holds₂
  refine ⟨(req₂.bytes order).take req₂.nh.nlmsgLen, ?_, ?_⟩
  · have usable : ¬ tunifindex < 1 := by omega
    have second : req₁.attach order rtaOif (order.put32 tunifindex) = .ok req₂ := attached₂
    simp only [opRouteToDev, if_neg usable, header, data, attached₁, second, bind, Except.bind]
    rfl
  · have told := holds₂.len
    rw [sizeBoth] at told
    simp only [sizeofNlmsghdr, sizeofRtmsg] at told
    have operation : req₂.nh.nlmsgType = op := type₂.trans (type₁.trans type)
    have header₂ : req₂.rt = req.rt := rt₂.trans rt₁
    rw [holds₂.message, readRouteMessage_message holds₂.len (by omega)
      (by rw [operation]; rcases op_ with rfl | rfl <;> decide) (by simp), header₂, operation,
      rtmFamily, rtmDstLen, BitVec.toNat_ofNat, BitVec.toNat_ofNat, Nat.mod_eq_of_lt family,
      Nat.mod_eq_of_lt length, List.map_cons, known]
    change some (op, _, order.get (order.put32 tunifindex)) = _
    rw [order.get_put32 small]

end

-----------------------------------------------------------------------------------------
-- Sequences of calls
-----------------------------------------------------------------------------------------

/-- A call that changes the kernel's routes. -/
inductive RouteCall
  | add (pfx : Prefix)
  | del (pfx : Prefix)

/-- The prefix of a call. -/
def RouteCall.pfx : RouteCall → Prefix
  | add pfx => pfx
  | del pfx => pfx

/-- The operation that a call asks for. -/
def RouteCall.op : RouteCall → Nat
  | add _ => rtmNewroute
  | del _ => rtmDelroute

/-- What the call sends. -/
def RouteCall.message (order : ByteOrder) (tunifindex : Nat)
    : RouteCall → Except Fault (Option (List Byte))
  | add pfx => addRouteMessage order tunifindex pfx
  | del pfx => delRouteMessage order tunifindex pfx

/-- The daemon with the routes after the call. -/
def RouteCall.apply (lisp : Lisp) : RouteCall → Lisp
  | add pfx => addRouteToTun pfx lisp
  | del pfx => delRouteToTun pfx lisp

section

variable {order : ByteOrder} {tunifindex : Nat} {lisp : Lisp}

/-- The message for a prefix is read as its route. -/
theorem opRouteToDev_route {op : Nat} {pfx : Prefix} (op_ : op = rtmNewroute ∨ op = rtmDelroute)
    (device : 1 ≤ tunifindex) (small : tunifindex < 4294967296) (valid : pfx.Valid)
    : ∃ m, opRouteToDev order tunifindex op pfx.family pfx.add.toList pfx.bitlen = .ok (some m)
        ∧ readRouteMessage order m = some (op, pfx.route, tunifindex) := by
  have short := valid.bitlen_le
  have family : pfx.family < 256 := by
    rcases valid.family with ipv4 | ipv6
    · rw [ipv4]
      decide
    · rw [ipv6]
      decide
  obtain ⟨m, sent, read⟩ := @opRouteToDev_reads order _ _ _ _ _ op_ device small family
    (show pfx.bitlen < 256 by omega) (List.Vector.toList_length pfx.add)
  refine ⟨m, sent, ?_⟩
  have dst : pfx.add.toList.take (addrlenOf pfx.family)
      = if pfx.family = afInet then (sin pfx.add).toList else pfx.add.toList := by
    unfold addrlenOf
    split
    · rfl
    · exact List.take_of_length_le (by simp)
  rw [read, dst]
  rfl

/-- The message of a call is read as its operation, its route and the device. -/
theorem RouteCall.reads (device : 1 ≤ tunifindex) (small : tunifindex < 4294967296)
    (call : RouteCall) (valid : call.pfx.Valid)
    : ∃ m, call.message order tunifindex = .ok (some m)
        ∧ readRouteMessage order m = some (call.op, call.pfx.route, tunifindex) := by
  cases call with
  | add pfx => exact opRouteToDev_route (.inl rfl) device small valid
  | del pfx => exact opRouteToDev_route (.inr rfl) device small valid

/-- A kernel that goes by the messages changes its routes as the call does. -/
theorem GoesBy.call {kernel : List Route → List Byte → List Route} {call : RouteCall}
    {m : List Byte} (goes : GoesBy order tunifindex kernel)
    (read : readRouteMessage order m = some (call.op, call.pfx.route, tunifindex))
    : kernel lisp.routes m = (call.apply lisp).routes := by
  cases call with
  | add pfx =>
      rw [goes.adds _ _ _ read, RouteCall.apply, addRouteToTun]
      change (if pfx.route ∈ lisp.routes then _ else _) = _
      split <;> rfl
  | del pfx => exact goes.removes _ _ _ read

/-- So it does in a sequence of calls, by induction on their messages. -/
theorem GoesBy.calls {kernel : List Route → List Byte → List Route} {calls : List RouteCall}
    {messages : List (List Byte)} (goes : GoesBy order tunifindex kernel)
    (read : List.Forall₂
      (fun call m => readRouteMessage order m
        = some (RouteCall.op call, call.pfx.route, tunifindex)) calls messages)
    : messages.foldl kernel lisp.routes = (calls.foldl RouteCall.apply lisp).routes := by
  induction read generalizing lisp with
  | nil => rfl
  | cons first _ ih => rw [List.foldl_cons, List.foldl_cons, goes.call first, ih]

/-- Whatever the byte order of the host and the index of the device: calls for valid prefixes send
messages that tell their lengths and are read as the operations, the routes and the device; and
every kernel that goes by such messages has just the routes that the calls are modelled with.
-/
theorem routeMessages_kept (device : 1 ≤ tunifindex) (small : tunifindex < 4294967296)
    (calls : List RouteCall) (valid : ∀ call ∈ calls, call.pfx.Valid)
    : ∃ messages,
        List.Forall₂
            (fun call m => RouteCall.message order tunifindex call = .ok (some m)
              ∧ order.get (m.take 4) = m.length
              ∧ readRouteMessage order m = some (call.op, call.pfx.route, tunifindex))
            calls messages
          ∧ ∀ kernel, GoesBy order tunifindex kernel
            → messages.foldl kernel lisp.routes = (calls.foldl RouteCall.apply lisp).routes := by
  obtain ⟨messages, sent⟩ : ∃ messages, List.Forall₂
      (fun call m => RouteCall.message order tunifindex call = .ok (some m)
        ∧ order.get (m.take 4) = m.length
        ∧ readRouteMessage order m = some (call.op, call.pfx.route, tunifindex))
      calls messages := by
    induction calls with
    | nil => exact ⟨[], .nil⟩
    | cons call rest ih =>
        obtain ⟨m, sent, read⟩ := call.reads device small (valid call List.mem_cons_self)
        obtain ⟨messages, others⟩ := ih fun c mem => valid c (List.mem_cons_of_mem _ mem)
        exact ⟨m :: messages, .cons ⟨sent, readRouteMessage_length read, read⟩ others⟩
  exact ⟨messages, sent, fun kernel goes => goes.calls (sent.imp fun _ _ message => message.2.2)⟩

end

/-- The prefix 192.0.2.0/24. -/
def docPrefix : Prefix :=
  { family := afInet, bitlen := 24, refCount := 0, add := setSin (inAddr 192 0 2 0) (zeros 16) }

/-- The prefix 2001:db8:1::/48. -/
def docSixPrefix : Prefix where
  family := afInet6
  bitlen := 48
  refCount := 0
  add := ⟨[0x20, 0x01, 0x0d, 0xb8, 0, 1] ++ List.replicate 10 0, rfl⟩

/-- Witness: an IPv4 and an IPv6 route are added by a little-endian host, and the first one is
deleted.
-/
theorem docRoutes_kept
    : ∃ messages,
        List.Forall₂
            (fun call m => RouteCall.message .little 5 call = .ok (some m)
              ∧ ByteOrder.little.get (m.take 4) = m.length
              ∧ readRouteMessage .little m = some (call.op, call.pfx.route, 5))
            [.add docPrefix, .add docSixPrefix, .del docPrefix] messages
          ∧ messages.foldl (kernelRoutes .little 5) Lisp.start.routes
            = [⟨afInet6, [0x20, 0x01, 0x0d, 0xb8, 0, 1] ++ List.replicate 10 0, 48⟩] := by
  obtain ⟨messages, sent, kept⟩ := @routeMessages_kept .little 5 Lisp.start (by decide) (by decide)
    [.add docPrefix, .add docSixPrefix, .del docPrefix] (by decide)
  exact ⟨messages, sent, kept (kernelRoutes .little 5) (kernelRoutes_goesBy .little 5)⟩

end Lixy
