import Lixy.Daemon.RouteMessages

/-! How `is_route_scope_link` reads the kernel's answer about a destination, and what it makes of
every answer that is made of route messages.
-/

namespace Lixy

open ByteStrings
open Attributes (Attribute ByteOrder align encode walk)

abbrev rtmGetroute : Nat := 26

abbrev rtScopeLink : Byte := 253

abbrev rtaGateway : Nat := 5

abbrev nlmsgDone : Nat := 3

-----------------------------------------------------------------------------------------
-- is_route_scope_link
-----------------------------------------------------------------------------------------

/-- What `is_route_scope_link` sends to the kernel: the whole request. -/
def routeScopeRequest (order : ByteOrder) (af : Nat) (addr : List Byte)
    : Except Fault (List Byte) := do
  let prefixLen := if af = afInet then 32 else 128
  let addrlen := addrlenOf af
  let req : RouteRequest :=
    { RouteRequest.zero with
        nh := { RouteRequest.zero.nh with
          nlmsgLen := sizeofNlmsghdr + sizeofRtmsg, nlmsgType := rtmGetroute
          nlmsgFlags := nlmFRequest, nlmsgSeq := 1 }
        rt := { RouteRequest.zero.rt with
          rtmFamily := BitVec.ofNat 8 af, rtmDstLen := prefixLen, rtmTable := rtTableMain
          rtmScope := rtScopeLink, rtmType := rtnUnicast } }
  let dst ← rdBytes addr 0 addrlen
  let req ← req.attach order rtaDst dst.toList
  return req.bytes order

/-- The variables that the two loops assign to. -/
structure RouteScope where
  gatewayExists : Bool
  scopeLink : Bool
  gwy : List Byte
  dst : List Byte

/-- A number of `n` bytes at `off`, in the host's order. -/
def rdHost (order : ByteOrder) (buf : List Byte) (off n : Nat) : Except Fault Nat := do
  let bs ← rdBytes buf off n
  return order.get bs.toList

/-- The loop over the attributes from `ra` on, of the route message at `rt`. -/
def scanAttributes (order : ByteOrder) (addrlen rt : Nat) (buf : List Byte)
    : Nat → Nat → Int → RouteScope → Except Fault RouteScope
  | 0, _, _, _ => .error .outOfSteps
  | fuel + 1, ra, rtlen, s => do
      if rtlen < 4 then
        return s
      else
        let rtaLen ← rdHost order buf ra 2
        if rtaLen < 4 ∨ rtlen < rtaLen then
          return s
        else
          let rtaType ← rdHost order buf (ra + 2) 2
          let s ←
            if rtaType = rtaGateway then do
              let gwy ← rdBytes buf (ra + 4) addrlen
              pure { s with gatewayExists := true, gwy := gwy.toList }
            else if rtaType = rtaDst then do
              let dst ← rdBytes buf (ra + 4) addrlen
              pure { s with dst := dst.toList }
            else
              pure s
          let rtmScope ← rd buf (rt + 6)
          let s := if rtmScope = rtScopeLink then { s with scopeLink := true } else s
          scanAttributes order addrlen rt buf fuel (ra + align rtaLen) (rtlen - align rtaLen) s

/-- The loop over the messages from `nh` on. The type is read before the place is checked. -/
def scanMessages (order : ByteOrder) (addrlen : Nat) (buf : List Byte)
    : Nat → Nat → Int → RouteScope → Except Fault RouteScope
  | 0, _, _, _ => .error .outOfSteps
  | fuel + 1, nh, n, s => do
      let nlmsgType ← rdHost order buf (nh + 4) 2
      if nlmsgType = nlmsgDone ∨ n < sizeofNlmsghdr then
        return s
      else
        let nlmsgLen ← rdHost order buf nh 4
        if nlmsgLen < sizeofNlmsghdr ∨ n < nlmsgLen then
          return s
        else
          let rt := nh + sizeofNlmsghdr
          let s ← scanAttributes order addrlen rt buf (buf.length + 1) (rt + sizeofRtmsg)
            (nlmsgLen - (sizeofNlmsghdr + sizeofRtmsg)) s
          scanMessages order addrlen buf fuel (nh + align nlmsgLen) (n - align nlmsgLen) s

/-- `is_route_scope_link`, with what `read` returns from the kernel for a request, if anything, and
with what the variables for the addresses held.
-/
def isRouteScopeLink (order : ByteOrder) (answer : List Byte → Option (List Byte)) (af : Nat)
    (addr : List Byte) (gwy dst : Bytes 16)
    : Except Fault Int := do
  if af ≠ afInet ∧ af ≠ afInet6 then
    return -1
  else
    let addrlen := addrlenOf af
    let request ← routeScopeRequest order af addr
    match answer request with
    | none => return -1
    | some reply =>
        let buf := overlay (List.replicate 1024 0) (reply.take 1024)
        let n := min reply.length 1024
        let s ← scanMessages order addrlen buf (buf.length + 1) 0 n
          ⟨false, false, gwy.toList.take addrlen, dst.toList.take addrlen⟩
        if !s.gatewayExists || s.scopeLink then
          return 1
        else if af = afInet6 ∧ s.gwy = s.dst then
          return 1
        else
          return 0

-----------------------------------------------------------------------------------------
-- Answers
-----------------------------------------------------------------------------------------

/-- A route message of the kernel, for addresses of the length. -/
structure RouteReply (order : ByteOrder) (addrlen : Nat) where
  nh : Nlmsghdr
  rt : Rtmsg
  attrs : List Attribute
  len : nh.nlmsgLen = sizeofNlmsghdr + sizeofRtmsg + (encode order attrs).length
  lenFits : nh.nlmsgLen < 4294967296
  typeFits : nh.nlmsgType < 65536
  more : nh.nlmsgType ≠ nlmsgDone
  addresses : ∀ a ∈ attrs, a.type = rtaGateway ∨ a.type = rtaDst → a.data.length = addrlen

section

variable {order : ByteOrder} {addrlen : Nat}

/-- The message in memory. -/
def RouteReply.bytes (r : RouteReply order addrlen) : List Byte :=
  r.nh.bytes order ++ (r.rt.bytes order ++ encode order r.attrs)

/-- What an attribute of a message with the scope does to the variables. -/
def RouteScope.see (scope : Byte) (s : RouteScope) (a : Attribute) : RouteScope :=
  let s :=
    if a.type = rtaGateway then { s with gatewayExists := true, gwy := a.data }
    else if a.type = rtaDst then { s with dst := a.data }
    else s
  if scope = rtScopeLink then { s with scopeLink := true } else s

/-- What a message does to the variables. -/
def RouteScope.hear (s : RouteScope) (r : RouteReply order addrlen) : RouteScope :=
  r.attrs.foldl (RouteScope.see r.rt.rtmScope) s

theorem RouteReply.bytes_length (r : RouteReply order addrlen)
    : r.bytes.length = r.nh.nlmsgLen := by
  rw [bytes, List.length_append, List.length_append, Nlmsghdr.bytes_length,
    Rtmsg.bytes_length, r.len]
  omega

theorem RouteReply.bytes_length_mod (r : RouteReply order addrlen) : r.bytes.length % 4 = 0 := by
  have even := @Attributes.encode_length_mod order r.attrs
  rw [r.bytes_length, r.len]
  simp only [sizeofNlmsghdr, sizeofRtmsg]
  omega

theorem rdHost_put16 {buf : List Byte} {off n : Nat} (fits : n < 65536)
    (lies : LiesAt buf off (order.put16 n))
    : rdHost order buf off 2 = .ok n := by
  have read : rdBytes buf off 2 = .ok ⟨order.put16 n, order.put16_length n⟩ :=
    rdBytes_eq_ok.mpr (lies.slice (order.put16_length n))
  rw [rdHost, read]
  exact congrArg Except.ok (order.get_put16 fits)

theorem rdHost_put32 {buf : List Byte} {off n : Nat} (fits : n < 4294967296)
    (lies : LiesAt buf off (order.put32 n))
    : rdHost order buf off 4 = .ok n := by
  have read : rdBytes buf off 4 = .ok ⟨order.put32 n, order.put32_length n⟩ :=
    rdBytes_eq_ok.mpr (lies.slice (order.put32_length n))
  rw [rdHost, read]
  exact congrArg Except.ok (order.get_put32 fits)

/-- The loop sees the attribute that is next. -/
theorem scanAttributes_next {rt fuel ra : Nat} {rtlen : Int} {buf : List Byte} {s : RouteScope}
    {a : Attribute} {scope : Byte} (inside : a.length ≤ rtlen)
    (lies : LiesAt buf ra (a.body order)) (scope_eq : rd buf (rt + 6) = .ok scope)
    (address : a.type = rtaGateway ∨ a.type = rtaDst → a.data.length = addrlen)
    : scanAttributes order addrlen rt buf (fuel + 1) ra rtlen s
      = scanAttributes order addrlen rt buf fuel (ra + align a.length) (rtlen - align a.length)
          (s.see scope a) := by
  obtain ⟨front, data⟩ := lies.append
  obtain ⟨length, type⟩ := front.append
  rw [order.put16_length] at type
  rw [List.length_append, order.put16_length, order.put16_length] at data
  have rtaLen := rdHost_put16 a.lengthFits length
  have rtaType := rdHost_put16 a.typeFits type
  have enough : ¬ rtlen < 4 := by
    rw [Attribute.length] at inside
    omega
  have whole : ¬ (a.length < 4 ∨ rtlen < (a.length : Int)) := by
    rw [Attribute.length] at inside ⊢
    omega
  have copied (known : a.type = rtaGateway ∨ a.type = rtaDst)
      : rdBytes buf (ra + 4) addrlen = .ok ⟨a.data, address known⟩ :=
    rdBytes_eq_ok.mpr (data.slice (address known))
  rw [scanAttributes, if_neg enough]
  simp only [show rdHost order buf ra 2 = .ok a.length from rtaLen, rtaType, bind, Except.bind,
    if_neg whole, RouteScope.see]
  by_cases gateway : a.type = rtaGateway
  · simp only [if_pos gateway, copied (.inl gateway), pure, Except.pure, scope_eq]
    rfl
  · by_cases known : a.type = rtaDst
    · simp only [if_neg gateway, if_pos known, copied (.inr known), pure, Except.pure, scope_eq]
      rfl
    · simp only [if_neg gateway, if_neg known, pure, Except.pure, scope_eq]

/-- The loop over attributes sees one after the other; by induction on the attributes. -/
theorem scanAttributes_encode {rt fuel ra : Nat} {buf : List Byte} {s : RouteScope}
    {attrs : List Attribute} {scope : Byte} (enough : attrs.length < fuel)
    (lies : LiesAt buf ra (encode order attrs)) (scope_eq : rd buf (rt + 6) = .ok scope)
    (addresses
      : ∀ a ∈ attrs, a.type = rtaGateway ∨ a.type = rtaDst → a.data.length = addrlen)
    : scanAttributes order addrlen rt buf fuel ra (encode order attrs).length s
      = .ok (attrs.foldl (RouteScope.see scope) s) := by
  induction attrs generalizing fuel ra s with
  | nil =>
      cases fuel with
      | zero => cases enough
      | succ fuel => rfl
  | cons a rest ih =>
      cases fuel with
      | zero => cases enough
      | succ fuel =>
          rw [encode, List.flatMap_cons, ← encode] at lies ⊢
          obtain ⟨here, behind⟩ := lies.append
          have padded := Attributes.le_align a.length
          rw [a.bytes_length] at behind
          rw [List.length_append, a.bytes_length,
            scanAttributes_next (by omega) here.append.1 scope_eq (addresses a List.mem_cons_self)]
          have left : ((align a.length + (encode order rest).length : Nat) : Int) - align a.length
              = (encode order rest).length := by omega
          rw [left, ih (Nat.lt_of_succ_lt_succ enough) behind
            fun b mem => addresses b (List.mem_cons_of_mem _ mem)]
          rfl

/-- The loop hears the message that is next. -/
theorem scanMessages_next {fuel nh : Nat} {n : Int} {buf : List Byte} {s : RouteScope}
    (r : RouteReply order addrlen) (inside : r.bytes.length ≤ n) (lies : LiesAt buf nh r.bytes)
    : scanMessages order addrlen buf (fuel + 1) nh n s
      = scanMessages order addrlen buf fuel (nh + r.bytes.length) (n - r.bytes.length)
          (s.hear r) := by
  obtain ⟨header, body⟩ := lies.append
  obtain ⟨route, attrs⟩ := body.append
  rw [Nlmsghdr.bytes_length] at route attrs
  rw [Rtmsg.bytes_length] at attrs
  have even := r.bytes_length_mod
  have size := r.bytes_length
  have aligned : align r.nh.nlmsgLen = r.bytes.length := by
    rw [← size, align]
    omega
  obtain ⟨rest, _⟩ := header.append
  obtain ⟨rest, _⟩ := rest.append
  obtain ⟨len, type⟩ := rest.append.1.append
  rw [order.put32_length] at type
  have nlmsgLen := rdHost_put32 r.lenFits len
  have nlmsgType := rdHost_put16 r.typeFits type
  have scope : rd buf (nh + sizeofNlmsghdr + 6) = .ok r.rt.rtmScope := by
    rw [rd, route.getElem? (by rw [Rtmsg.bytes_length]; decide)]
    rfl
  have whole : ¬ (r.nh.nlmsgType = nlmsgDone ∨ n < (sizeofNlmsghdr : Int)) := by
    have more := r.more
    have len := r.len
    simp only [sizeofNlmsghdr, sizeofRtmsg] at len ⊢
    omega
  have told : ¬ (r.nh.nlmsgLen < sizeofNlmsghdr ∨ n < (r.nh.nlmsgLen : Int)) := by
    have len := r.len
    simp only [sizeofNlmsghdr, sizeofRtmsg] at len ⊢
    omega
  have payload : (r.nh.nlmsgLen : Int) - (sizeofNlmsghdr + sizeofRtmsg)
      = (encode order r.attrs).length := by
    have len := r.len
    simp only [sizeofNlmsghdr, sizeofRtmsg] at len ⊢
    omega
  have enough : r.attrs.length < buf.length + 1 := by
    have few := @Attributes.length_le_encode order r.attrs
    have fits := attrs.le
    omega
  have seen : scanAttributes order addrlen (nh + sizeofNlmsghdr) buf (buf.length + 1)
      (nh + sizeofNlmsghdr + sizeofRtmsg) (encode order r.attrs).length s = .ok (s.hear r) :=
    scanAttributes_encode enough attrs scope r.addresses
  rw [scanMessages]
  simp only [nlmsgType, nlmsgLen, bind, Except.bind, if_neg whole, if_neg told, payload, seen,
    aligned]

/-- Behind the last message the loop looks for a type, and ends there. -/
theorem scanMessages_end {fuel nh : Nat} {buf : List Byte} {s : RouteScope}
    : scanMessages order addrlen buf (fuel + 1) nh 0 s
      = if nh + 6 ≤ buf.length then .ok s else .error (.readPast (max (nh + 4) buf.length)) := by
  rw [scanMessages]
  by_cases inside : nh + 6 ≤ buf.length
  · obtain ⟨bs, read⟩ := rdBytes_total (n := 2) (show nh + 4 + 2 ≤ buf.length from inside)
    have none (type : Nat) : type = nlmsgDone ∨ (0 : Int) < sizeofNlmsghdr := .inr (by decide)
    simp only [rdHost, read, bind, Except.bind, pure, Except.pure, if_pos (none _), if_pos inside]
  · have past : rdBytes buf (nh + 4) 2 = .error (.readPast (max (nh + 4) buf.length)) := by
      rw [rdBytes, slice, dif_neg (by omega)]
    simp only [rdHost, past, bind, Except.bind, if_neg inside]

/-- The loop hears one message after the other; by induction on the messages. -/
theorem scanMessages_replies {replies : List (RouteReply order addrlen)} {fuel nh : Nat}
    {buf : List Byte} {s : RouteScope} (enough : replies.length < fuel)
    (lies : LiesAt buf nh (replies.flatMap RouteReply.bytes))
    : scanMessages order addrlen buf fuel nh (replies.flatMap RouteReply.bytes).length s
      = if nh + (replies.flatMap RouteReply.bytes).length + 6 ≤ buf.length then
          .ok (replies.foldl RouteScope.hear s)
        else
          .error (.readPast (max (nh + (replies.flatMap RouteReply.bytes).length + 4) buf.length))
    := by
  induction replies generalizing fuel nh s with
  | nil =>
      cases fuel with
      | zero => cases enough
      | succ fuel => exact scanMessages_end
  | cons r rest ih =>
      cases fuel with
      | zero => cases enough
      | succ fuel =>
          rw [List.flatMap_cons] at lies ⊢
          obtain ⟨here, behind⟩ := lies.append
          rw [List.length_append, scanMessages_next r (by omega) here]
          have left : ((r.bytes.length + (rest.flatMap RouteReply.bytes).length : Nat) : Int)
              - r.bytes.length = (rest.flatMap RouteReply.bytes).length := by omega
          rw [left, ih (Nat.lt_of_succ_lt_succ enough) behind, Nat.add_assoc nh, List.foldl_cons]

end

-----------------------------------------------------------------------------------------
-- What the answers come to
-----------------------------------------------------------------------------------------

/-- The data of the last attribute of the type, or what was there before. -/
def lastData (type : Nat) (before : List Byte) (attrs : List Attribute) : List Byte :=
  attrs.foldl (fun data a => if a.type = type then a.data else data) before

section

variable {order : ByteOrder} {addrlen : Nat}

/-- The variables after an attribute, one by one. -/
theorem see_eq (scope : Byte) (s : RouteScope) (a : Attribute)
    : s.see scope a
      = { gatewayExists := s.gatewayExists || decide (a.type = rtaGateway)
          scopeLink := s.scopeLink || decide (scope = rtScopeLink)
          gwy := if a.type = rtaGateway then a.data else s.gwy
          dst := if a.type = rtaDst then a.data else s.dst } := by
  have linked (t : RouteScope)
      : (if scope = rtScopeLink then { t with scopeLink := true } else t)
        = { t with scopeLink := t.scopeLink || decide (scope = rtScopeLink) } := by
    split
    · next link => rw [decide_eq_true link, Bool.or_true]
    · next link => rw [decide_eq_false link, Bool.or_false]
  unfold RouteScope.see
  by_cases gateway : a.type = rtaGateway
  · have known : ¬ a.type = rtaDst := by
      rw [gateway]
      decide
    rw [if_pos gateway, if_pos gateway, if_neg known, decide_eq_true gateway, Bool.or_true]
    exact linked _
  · rw [if_neg gateway, if_neg gateway, decide_eq_false gateway, Bool.or_false]
    by_cases known : a.type = rtaDst
    · rw [if_pos known, if_pos known]
      exact linked _
    · rw [if_neg known, if_neg known]
      exact linked s

/-- The variables after attributes of messages with some scopes; by induction on the attributes.
-/
theorem see_all (seen : List (Byte × Attribute)) (s : RouteScope)
    : seen.foldl (fun s p => s.see p.1 p.2) s
      = { gatewayExists := s.gatewayExists || seen.any (·.2.type = rtaGateway)
          scopeLink := s.scopeLink || seen.any (·.1 = rtScopeLink)
          gwy := lastData rtaGateway s.gwy (seen.map Prod.snd)
          dst := lastData rtaDst s.dst (seen.map Prod.snd) } := by
  induction seen generalizing s with
  | nil => simp [lastData]
  | cons p rest ih =>
      rw [List.foldl_cons, ih, see_eq, List.any_cons, List.any_cons, Bool.or_assoc, Bool.or_assoc]
      rfl

/-- The attributes of the messages, each with the scope of its message. -/
def scopedAttrs (replies : List (RouteReply order addrlen)) : List (Byte × Attribute) :=
  replies.flatMap fun r => r.attrs.map fun a => (r.rt.rtmScope, a)

theorem hear_all (replies : List (RouteReply order addrlen)) (s : RouteScope)
    : replies.foldl RouteScope.hear s
      = (scopedAttrs replies).foldl (fun s p => s.see p.1 p.2) s := by
  induction replies generalizing s with
  | nil => rfl
  | cons r rest ih =>
      have split : scopedAttrs (r :: rest)
          = (r.attrs.map fun a => (r.rt.rtmScope, a)) ++ scopedAttrs rest := List.flatMap_cons
      rw [List.foldl_cons, ih, split, List.foldl_append, List.foldl_map]
      rfl

theorem scopedAttrs_attrs (replies : List (RouteReply order addrlen))
    : (scopedAttrs replies).map Prod.snd = replies.flatMap RouteReply.attrs := by
  rw [scopedAttrs, List.map_flatMap]
  simp only [List.map_map, Function.comp_def, List.map_id']

/-- The answers say that the destination is on the link: no gateway, or a message of link scope
with an attribute, or, for IPv6, a gateway that is the destination.
-/
def OnLink (af : Nat) (replies : List (RouteReply order addrlen)) (gwy dst : List Byte) : Prop :=
  (∀ r ∈ replies, ∀ a ∈ r.attrs, a.type ≠ rtaGateway)
    ∨ (∃ r ∈ replies, r.attrs ≠ [] ∧ r.rt.rtmScope = rtScopeLink)
    ∨ af = afInet6
      ∧ lastData rtaGateway gwy (replies.flatMap RouteReply.attrs)
        = lastData rtaDst dst (replies.flatMap RouteReply.attrs)

/-- The test at the end is that the destination is on the link. -/
theorem onLink_iff {af : Nat} {replies : List (RouteReply order addrlen)} {gwy dst : List Byte}
    {s : RouteScope} (heard : replies.foldl RouteScope.hear ⟨false, false, gwy, dst⟩ = s)
    : OnLink af replies gwy dst
      ↔ s.gatewayExists = false ∨ s.scopeLink = true ∨ af = afInet6 ∧ s.gwy = s.dst := by
  rw [hear_all, see_all, scopedAttrs_attrs] at heard
  subst heard
  simp only [OnLink, Bool.false_or, List.any_eq_false, List.any_eq_true, scopedAttrs,
    List.mem_flatMap, List.mem_map, decide_eq_true_eq]
  refine or_congr ?_ (or_congr ?_ Iff.rfl)
  · constructor
    · rintro none _ ⟨r, mem, a, inside, rfl⟩
      exact none r mem a inside
    · exact fun none r mem a inside => none _ ⟨r, mem, a, inside, rfl⟩
  · constructor
    · rintro ⟨r, mem, some_, link⟩
      obtain ⟨a, inside⟩ := List.exists_mem_of_ne_nil _ some_
      exact ⟨_, ⟨r, mem, a, inside, rfl⟩, link⟩
    · rintro ⟨_, ⟨r, mem, a, inside, rfl⟩, link⟩
      exact ⟨r, mem, List.ne_nil_of_mem inside, link⟩

end

section

variable {order : ByteOrder} {af : Nat}

/-- The answer in the buffer. -/
def answerBuf (reply : List Byte) : List Byte :=
  overlay (List.replicate 1024 0) (reply.take 1024)

theorem answerBuf_length (reply : List Byte) : (answerBuf reply).length = 1024 := by
  rw [answerBuf, overlay_length, List.length_replicate]
  rw [List.length_replicate]
  exact List.length_take_le 1024 reply

/-- What is returned for an answer that is scanned. -/
theorem isRouteScopeLink_eq {answer : List Byte → Option (List Byte)}
    {addr request reply : List Byte} (known : af = afInet ∨ af = afInet6)
    (asked : routeScopeRequest order af addr = .ok request)
    (answered : answer request = some reply) (gwy dst : Bytes 16)
    : isRouteScopeLink order answer af addr gwy dst
      = (do
          let s ← scanMessages order (addrlenOf af) (answerBuf reply) 1025 0
            (min reply.length 1024 : Nat)
            ⟨false, false, gwy.toList.take (addrlenOf af), dst.toList.take (addrlenOf af)⟩
          if !s.gatewayExists || s.scopeLink then
            return 1
          else if af = afInet6 ∧ s.gwy = s.dst then
            return 1
          else
            return 0) := by
  have family : ¬ (af ≠ afInet ∧ af ≠ afInet6) := fun other => known.elim other.1 other.2
  rw [isRouteScopeLink, if_neg family]
  dsimp only
  rw [asked]
  change (match answer request with | none => _ | some reply => _) = _
  rw [answered]
  dsimp only
  rw [← answerBuf, answerBuf_length]

/-- The request asks for the address. -/
theorem routeScopeRequest_asks {addr : List Byte} (known : af = afInet ∨ af = afInet6)
    (sized : addr.length = 16)
    : ∃ m, routeScopeRequest order af addr = .ok m
        ∧ (byteAt m sizeofNlmsghdr).toNat = af
        ∧ walk order 1 ((m.take (order.get (m.take 4))).drop (sizeofNlmsghdr + sizeofRtmsg))
          = [(rtaDst, addr.take (addrlenOf af))] := by
  let req : RouteRequest :=
    { RouteRequest.zero with
        nh := { RouteRequest.zero.nh with
          nlmsgLen := sizeofNlmsghdr + sizeofRtmsg, nlmsgType := rtmGetroute
          nlmsgFlags := nlmFRequest, nlmsgSeq := 1 }
        rt := { RouteRequest.zero.rt with
          rtmFamily := BitVec.ofNat 8 af, rtmDstLen := if af = afInet then 32 else 128
          rtmTable := rtTableMain, rtmScope := rtScopeLink, rtmType := rtnUnicast } }
  have empty : req.Holds order [] := ⟨rfl, rfl⟩
  obtain ⟨bs, dst, req', data, attached, holds, named, size, rt, _⟩ := empty.attachDst sized af
  have told : order.get ((req'.bytes order).take 4) = req'.nh.nlmsgLen := by
    have fits := holds.len
    simp only [sizeofNlmsghdr, sizeofRtmsg] at fits
    rw [RouteRequest.bytes, Nlmsghdr.bytes]
    simp only [List.append_assoc]
    rw [List.take_left' (order.put32_length _), order.get_put32 (by omega)]
  refine ⟨req'.bytes order, ?_, ?_, ?_⟩
  · simp only [routeScopeRequest, data, bind, Except.bind]
    change (req.attach order rtaDst bs.toList >>= _) = _
    rw [attached]
    rfl
  · have family : byteAt (req'.bytes order) sizeofNlmsghdr = BitVec.ofNat 8 af := by
      rw [RouteRequest.bytes, List.append_assoc, byteAt, List.getD_eq_getElem?_getD,
        List.getElem?_append_right (by simp), Nlmsghdr.bytes_length, rt]
      rfl
    rw [family]
    rcases known with rfl | rfl <;> rfl
  · have headers : (req'.nh.bytes order ++ req'.rt.bytes order).length
        = sizeofNlmsghdr + sizeofRtmsg := by
      rw [List.length_append, Nlmsghdr.bytes_length, Rtmsg.bytes_length]
    rw [told, holds.message, ← List.append_assoc, List.drop_left' headers,
      Attributes.walk_encode (by simp), List.map_singleton, named]

/-- There are no more messages than bytes. -/
theorem length_le_replies {addrlen : Nat} (replies : List (RouteReply order addrlen))
    : replies.length ≤ (replies.flatMap RouteReply.bytes).length := by
  induction replies with
  | nil => exact Nat.zero_le _
  | cons r rest ih =>
      have size := r.bytes_length
      have len := r.len
      simp only [sizeofNlmsghdr, sizeofRtmsg] at len
      rw [List.flatMap_cons, List.length_append, List.length_cons]
      omega

/-- `is_route_scope_link` asks the kernel for the address, and whatever route messages the kernel
answers with, as many as fit in the buffer: it returns 1 if they say that the destination is on
the link, and otherwise 0, unless they leave less than six bytes of the buffer; then it reads
behind it.
-/
theorem isRouteScopeLink_answers {answer : List Byte → Option (List Byte)} {addr : List Byte}
    (known : af = afInet ∨ af = afInet6) (sized : addr.length = 16) (gwy dst : Bytes 16)
    : ∃ m, routeScopeRequest order af addr = .ok m
        ∧ (byteAt m sizeofNlmsghdr).toNat = af
        ∧ walk order 1 ((m.take (order.get (m.take 4))).drop (sizeofNlmsghdr + sizeofRtmsg))
          = [(rtaDst, addr.take (addrlenOf af))]
        ∧ ∀ replies : List (RouteReply order (addrlenOf af)),
          answer m = some (replies.flatMap RouteReply.bytes)
          → (replies.flatMap RouteReply.bytes).length ≤ 1024
          → ((replies.flatMap RouteReply.bytes).length + 6 ≤ 1024
              → ∃ res, isRouteScopeLink order answer af addr gwy dst = .ok res
                ∧ (OnLink af replies (gwy.toList.take (addrlenOf af))
                    (dst.toList.take (addrlenOf af)) → res = 1)
                ∧ (¬ OnLink af replies (gwy.toList.take (addrlenOf af))
                    (dst.toList.take (addrlenOf af)) → res = 0))
            ∧ (1024 < (replies.flatMap RouteReply.bytes).length + 6
              → ∃ off, isRouteScopeLink order answer af addr gwy dst = .error (.readPast off)) := by
  obtain ⟨m, asked, family, named⟩ := @routeScopeRequest_asks order _ _ known sized
  refine ⟨m, asked, family, named, fun replies answered fits => ?_⟩
  have lies : LiesAt (answerBuf (replies.flatMap RouteReply.bytes)) 0
      (replies.flatMap RouteReply.bytes) := by
    rw [answerBuf, List.take_of_length_le fits]
    exact ⟨[], _, rfl, rfl⟩
  have few : replies.length < 1025 :=
    Nat.lt_succ_of_le ((length_le_replies replies).trans fits)
  have scanned := @scanMessages_replies order (addrlenOf af) replies 1025 0 _
    ⟨false, false, gwy.toList.take (addrlenOf af), dst.toList.take (addrlenOf af)⟩ few lies
  rw [answerBuf_length, Nat.zero_add] at scanned
  rw [isRouteScopeLink_eq known asked answered, Nat.min_eq_left fits, scanned]
  constructor
  · intro room
    rw [if_pos room]
    obtain ⟨s, heard⟩ : ∃ s, replies.foldl RouteScope.hear
        ⟨false, false, gwy.toList.take (addrlenOf af), dst.toList.take (addrlenOf af)⟩ = s :=
      ⟨_, rfl⟩
    rw [heard, onLink_iff heard]
    by_cases near : (!s.gatewayExists || s.scopeLink) = true
    · refine ⟨1, ?_, fun _ => rfl, fun far => absurd ?_ far⟩
      · simp only [bind, Except.bind, if_pos near]
        rfl
      · rw [Bool.or_eq_true, Bool.not_eq_true'] at near
        exact near.imp_right .inl
    · by_cases itself : af = afInet6 ∧ s.gwy = s.dst
      · refine ⟨1, ?_, fun _ => rfl, fun far => absurd (.inr (.inr itself)) far⟩
        simp only [bind, Except.bind, if_neg near, if_pos itself]
        rfl
      · refine ⟨0, ?_, fun on => absurd ?_ near, fun _ => rfl⟩
        · simp only [bind, Except.bind, if_neg near, if_neg itself]
          rfl
        · rw [Bool.or_eq_true, Bool.not_eq_true']
          exact on.imp_right fun on => on.resolve_right itself
  · intro full
    rw [if_neg (by omega)]
    exact ⟨_, rfl⟩

end

/-- A kernel's answer for 10.0.0.1, behind the gateway 10.0.0.254. -/
def gatewayReply : RouteReply .little (addrlenOf afInet) where
  nh := ⟨44, 24, 0, 1, 0⟩
  rt := ⟨2, 32, 0, 0, 254, 3, 0, 1, 0⟩
  attrs := [⟨rtaDst, [10, 0, 0, 1], by decide, by decide⟩,
    ⟨rtaGateway, [10, 0, 0, 254], by decide, by decide⟩]
  len := rfl
  lenFits := by decide
  typeFits := by decide
  more := by decide
  addresses := by simp [addrlenOf]

/-- Witness: with that answer the destination is not on the link. -/
theorem gatewayReply_answers
    : ∃ m, routeScopeRequest .little afInet [10, 0, 0, 1, 0, 0, 0, 0, 0, 0, 0, 0, 0, 0, 0, 0]
          = .ok m
        ∧ isRouteScopeLink .little (fun _ => some gatewayReply.bytes) afInet
            [10, 0, 0, 1, 0, 0, 0, 0, 0, 0, 0, 0, 0, 0, 0, 0] (zeros 16) (zeros 16)
          = .ok 0 := by
  obtain ⟨m, asked, _, _, answers⟩ := @isRouteScopeLink_answers .little afInet
    (fun _ => some gatewayReply.bytes) [10, 0, 0, 1, 0, 0, 0, 0, 0, 0, 0, 0, 0, 0, 0, 0]
    (.inl rfl) rfl (zeros 16) (zeros 16)
  have one : [gatewayReply].flatMap RouteReply.bytes = gatewayReply.bytes :=
    List.flatMap_singleton RouteReply.bytes gatewayReply
  have size : gatewayReply.bytes.length = 44 := gatewayReply.bytes_length
  obtain ⟨inside, _⟩ := answers [gatewayReply] (by rw [one]) (by rw [one, size]; decide)
  obtain ⟨res, done, _, far⟩ := inside (by rw [one, size]; decide)
  refine ⟨m, asked, ?_⟩
  rw [done, far]
  rintro (none | ⟨r, mem, _, link⟩ | ⟨ipv6, _⟩)
  · exact none gatewayReply List.mem_cons_self _ (List.mem_cons_of_mem _ List.mem_cons_self) rfl
  · rw [List.mem_singleton.mp mem] at link
    cases link
  · cases ipv6

end Lixy
