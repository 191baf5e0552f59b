import Mathlib.Data.List.Basic

/-!
# Forwarded region messages — headers pushed on the way out, dropped on the way back

A message for a region goes to the `RegionMatrixProxy` of the next process.  Where the handler
there holds a `RegionDataRemote`, the message is sent on with a `ForwardMessageHeader` in front
of it, which remembers the proxy and moves `contentOffset` past itself; the owner answers with
everything in front of the content it saw and its reply, and every process on the way back
drops its header and hands the rest to the proxy it remembered.

  * Memory is a list of bytes.  A byte is a piece of the value that was stored there, so a
    field is read back only where all the bytes of a value are in place.
  * `process` is the virtual `process*Msg` of each kind of region data, with the reply that
    comes back to the process that sent the message; it has no value where the code stops at
    an assertion.
  * `IsHeader` is the invariant of a header, whatever follows it; pushing a header keeps it.

What the owner computes from a request is a parameter of the region data (`serve`).
-/

namespace PbForwarding

abbrev EncodedPtr := Nat

inductive MessageType
  | READCELL
  | WRITECELL
  | READCELLCACHE
  | WRITECELLCACHE
  | GETHOSTLIST
  | UPDATEHANDLERCHAIN
  | ALLOCDATA
  | RANDOMIZEDATA
  | CREATEREMOTEREGIONDATA
  | CREATEREMOTEREGIONDATAREPLY
  | INITWITHREGIONHANDLER
  | TOSCRATCHSTORAGE
  | FROMSCRATCHSTORAGE
  | COPYREGIONDATASPLIT
  deriving DecidableEq, Repr

/-! ## Memory -/

/-- A value of one of the types the messages are made of. -/
inductive Value
  | bool (b : Bool)
  | messageType (t : MessageType)
  | size (n : Nat)
  | ptr (p : EncodedPtr)
  | int (n : Int)
  | hostPid (h : Nat)
  | element (e : Nat)
  deriving DecidableEq, Repr

/-- `sizeof`, all structures being packed. -/
def Value.width : Value → Nat
  | .bool _ => 1
  | .messageType _ => 4
  | .size _ => 8
  | .ptr _ => 8
  | .int _ => 4
  | .hostPid _ => 12
  | .element _ => 8

/-- Byte number `index` of a stored value. -/
structure Byte where
  value : Value
  index : Nat
  deriving DecidableEq, Repr

abbrev Buffer := List Byte

def Value.bytes (v : Value) : Buffer := (List.range v.width).map (Byte.mk v)

/-- The value stored at an offset, if all of it is there. -/
def readValue (buf : Buffer) (offset : Nat) : Option Value :=
  match buf.drop offset with
  | [] => none
  | b :: rest => if (b :: rest).take b.value.width = b.value.bytes then some b.value else none

/-! ## Headers -/

structure BaseMessageHeader where
  isForwardMessage : Bool
  type : MessageType
  contentOffset : Nat
  deriving DecidableEq, Repr

structure GeneralMessageHeader where
  type : MessageType
  responseData : EncodedPtr
  responseLen : EncodedPtr
  responseType : EncodedPtr
  responseCounter : EncodedPtr
  deriving DecidableEq, Repr

def sizeofGeneralMessageHeader : Nat := 45

def sizeofForwardMessageHeader : Nat := 21

def BaseMessageHeader.bytes (h : BaseMessageHeader) : Buffer :=
  (Value.bool h.isForwardMessage).bytes ++ (Value.messageType h.type).bytes ++
    (Value.size h.contentOffset).bytes

/-- The header `fetchData` sends. -/
def GeneralMessageHeader.bytes (h : GeneralMessageHeader) : Buffer :=
  BaseMessageHeader.bytes ⟨false, h.type, sizeofGeneralMessageHeader⟩ ++
    (Value.ptr h.responseData).bytes ++ (Value.ptr h.responseLen).bytes ++
    (Value.ptr h.responseType).bytes ++ (Value.ptr h.responseCounter).bytes

/-- The header `forwardMessage` puts in front of a message with header `base`. -/
def forwardMessageHeader (base : BaseMessageHeader) (callback : EncodedPtr) : Buffer :=
  BaseMessageHeader.bytes
      ⟨true, base.type, sizeofForwardMessageHeader + base.contentOffset⟩ ++
    (Value.ptr callback).bytes

/-- A buffer seen as a `BaseMessageHeader`. -/
def readBase (buf : Buffer) : Option BaseMessageHeader :=
  match readValue buf 0, readValue buf 1, readValue buf 5 with
  | some (.bool f), some (.messageType t), some (.size n) => some ⟨f, t, n⟩
  | _, _, _ => none

/-- A buffer seen as a `GeneralMessageHeader`. -/
def readGeneral (buf : Buffer) : Option GeneralMessageHeader :=
  match readBase buf, readValue buf 13, readValue buf 21, readValue buf 29, readValue buf 37 with
  | some base, some (.ptr data), some (.ptr len), some (.ptr type), some (.ptr counter) =>
      some ⟨base.type, data, len, type, counter⟩
  | _, _, _, _, _ => none

/-- `UpdateHandlerChainMessage`. -/
def updateHandlerChainMessage (requester : Nat) (numHops : Int) : Buffer :=
  (Value.hostPid requester).bytes ++ (Value.int numHops).bytes

/-- `msg->numHops++` for the `UpdateHandlerChainMessage` at an offset. -/
def incNumHops (buf : Buffer) (offset : Nat) : Buffer :=
  match readValue buf (offset + 12) with
  | some (.int n) =>
      buf.take (offset + 12) ++ (Value.int (n + 1)).bytes ++ buf.drop (offset + 16)
  | _ => buf

/-! ## Region data -/

/-- What a handler holds.  `raw` and `split` answer a request from its content; `split` also
    has the part a cell of the content lies in, and the content with the coordinate in that
    part.  `remote` has the data of the handler in the next process and the proxy there. -/
inductive RegionData
  | raw (serve : MessageType → Buffer → Buffer)
  | split (serve : MessageType → Buffer → Buffer) (part : Buffer → RegionData)
      (coordPart : Buffer → Buffer)
  | remote (next : RegionData) (proxy : EncodedPtr)

/-- What became of a message: the request the owner served and the content it saw, and the
    reply on its way back. -/
structure Delivery where
  type : MessageType
  content : Buffer
  reply : Buffer
  replyType : Option MessageType
  deriving DecidableEq

/-- The types of the replies of `RegionDataRaw`, for the messages it implements; a reply that
    gives no type has none. -/
def rawReplyType : MessageType → Option (Option MessageType)
  | .READCELL => some (some .READCELL)
  | .WRITECELL => some (some .WRITECELL)
  | .READCELLCACHE => some none
  | .WRITECELLCACHE => some none
  | .GETHOSTLIST => some (some .GETHOSTLIST)
  | .UPDATEHANDLERCHAIN => some (some .UPDATEHANDLERCHAIN)
  | .ALLOCDATA => some (some .ALLOCDATA)
  | .RANDOMIZEDATA => some (some .RANDOMIZEDATA)
  | .TOSCRATCHSTORAGE => some (some .TOSCRATCHSTORAGE)
  | .FROMSCRATCHSTORAGE => some (some .FROMSCRATCHSTORAGE)
  | _ => none

/-- The same for `RegionDataSplit`, without the messages it passes on to a part. -/
def splitReplyType : MessageType → Option (Option MessageType)
  | .GETHOSTLIST => some (some .COPYREGIONDATASPLIT)
  | .UPDATEHANDLERCHAIN => some (some .UPDATEHANDLERCHAIN)
  | .ALLOCDATA => some (some .ALLOCDATA)
  | .RANDOMIZEDATA => some (some .RANDOMIZEDATA)
  | .TOSCRATCHSTORAGE => some (some .COPYREGIONDATASPLIT)
  | .COPYREGIONDATASPLIT => some (some .COPYREGIONDATASPLIT)
  | _ => none

/-- The messages `RegionDataRemote` forwards; the others meet the assertion of `RegionDataI`. -/
def forwards : MessageType → Bool
  | .READCELL | .WRITECELL | .GETHOSTLIST | .UPDATEHANDLERCHAIN | .ALLOCDATA | .RANDOMIZEDATA
  | .TOSCRATCHSTORAGE | .FROMSCRATCHSTORAGE | .COPYREGIONDATASPLIT => true
  | _ => false

/-- The types `RegionMatrixProxy::processReplyMsg` knows. -/
def repliesTo : MessageType → Bool
  | .CREATEREMOTEREGIONDATA | .CREATEREMOTEREGIONDATAREPLY | .INITWITHREGIONHANDLER => false
  | _ => true

/-- `sendReply`: everything in front of the content, then the reply. -/
def sendReply (base : BaseMessageHeader) (buf reply : Buffer) : Buffer :=
  buf.take base.contentOffset ++ reply

/-- `RegionDataRemote::onRecv` and the proxy it calls back: drop the header of this hop. -/
def forwardReply (caller : EncodedPtr) (d : Delivery) : Option Delivery := do
  let base ← readBase d.reply
  if d.replyType = some .CREATEREMOTEREGIONDATAREPLY || !base.isForwardMessage then none
  else if readValue d.reply 13 = some (.ptr caller) && repliesTo base.type then
    pure { d with reply := d.reply.drop sizeofForwardMessageHeader }
  else none

/-- The `process*Msg` that `RegionMatrixProxy::onRecv` calls for a message of type `t`; `caller`
    is the proxy. -/
def RegionData.process : RegionData → EncodedPtr → MessageType → Buffer → Option Delivery
  | .raw serve, _, t, buf => do
      let replyType ← rawReplyType t
      let base ← readBase buf
      let content := buf.drop base.contentOffset
      pure ⟨t, content, sendReply base buf (serve t content), replyType⟩
  | .split serve part coordPart, caller, t, buf => do
      let base ← readBase buf
      let content := buf.drop base.contentOffset
      if t = .READCELL ∨ t = .WRITECELL then
        let d ← (part content).process caller t (buf.take base.contentOffset ++ coordPart content)
        pure { d with content := content }
      else
        let replyType ← splitReplyType t
        pure ⟨t, content, sendReply base buf (serve t content), replyType⟩
  | .remote next proxy, caller, t, buf =>
      if forwards t then do
        let base ← readBase buf
        let buf := if t = .UPDATEHANDLERCHAIN then incNumHops buf base.contentOffset else buf
        let d ← next.process proxy base.type (forwardMessageHeader base caller ++ buf)
        forwardReply caller d
      else none

/-- `RegionDataRemote::onRecv` of the requester: the reply goes where its header says. -/
def receiveReply (d : Delivery) : Option (GeneralMessageHeader × Delivery) := do
  let base ← readBase d.reply
  if d.replyType = some .CREATEREMOTEREGIONDATAREPLY || base.isForwardMessage then none
  else
    let header ← readGeneral d.reply
    pure (header, d)

/-- `fetchData` and `fetchDataNonBlock` of a reference whose target holds `d` behind `proxy`,
    with the header that comes back. -/
def fetchData (d : RegionData) (proxy : EncodedPtr) (header : GeneralMessageHeader)
    (msg : Buffer) : Option (GeneralMessageHeader × Delivery) := do
  let delivery ← d.process proxy header.type (header.bytes ++ msg)
  receiveReply delivery

/-- The messages a `RegionDataRemote` sends; copies of split data are made piece by piece. -/
def emits (isDataSplit : Bool) : MessageType → Bool
  | .READCELL | .WRITECELL | .READCELLCACHE | .UPDATEHANDLERCHAIN | .ALLOCDATA
  | .RANDOMIZEDATA => true
  | .TOSCRATCHSTORAGE | .FROMSCRATCHSTORAGE => !isDataSplit
  | .COPYREGIONDATASPLIT => isDataSplit
  | _ => false

/-! ## Reading headers back -/

theorem length_bytes (v : Value) : v.bytes.length = v.width := by
  rw [Value.bytes, List.length_map, List.length_range]

/-- A stored value is read back where it was stored. -/
theorem readValue_append (pre : Buffer) (v : Value) (post : Buffer) :
    readValue (pre ++ v.bytes ++ post) pre.length = some v := by
  have hdrop : (pre ++ v.bytes ++ post).drop pre.length = v.bytes ++ post := by
    rw [List.append_assoc, List.drop_left]
  have hhead : ∃ rest, v.bytes ++ post = ⟨v, 0⟩ :: rest := by
    cases v <;> exact ⟨_, rfl⟩
  obtain ⟨rest, hrest⟩ := hhead
  rw [readValue, hdrop, hrest]
  simp only
  rw [← hrest, if_pos (by rw [← length_bytes, List.take_left])]

/-- A field is read where it was written, whatever stands in front of it. -/
theorem readValue_at {buf : Buffer} {v : Value} {offset : Nat} (pre post : Buffer)
    (hbuf : buf = pre ++ v.bytes ++ post) (hoffset : offset = pre.length) :
    readValue buf offset = some v := by
  rw [hbuf, hoffset]
  exact readValue_append pre v post

theorem readValue_skip (pre post : Buffer) (offset : Nat) :
    readValue (pre ++ post) (pre.length + offset) = readValue post offset := by
  have hdrop : (pre ++ post).drop (pre.length + offset) = post.drop offset := by
    rw [← List.drop_drop, List.drop_left]
  rw [readValue, readValue, hdrop]

theorem readBase_bytes (h : BaseMessageHeader) (post : Buffer) :
    readBase (h.bytes ++ post) = some h := by
  have hforward : readValue (h.bytes ++ post) 0 = some (.bool h.isForwardMessage) :=
    readValue_at []
      ((Value.messageType h.type).bytes ++ (Value.size h.contentOffset).bytes ++ post)
      (by simp only [BaseMessageHeader.bytes, List.nil_append, List.append_assoc]) rfl
  have htype : readValue (h.bytes ++ post) 1 = some (.messageType h.type) :=
    readValue_at ((Value.bool h.isForwardMessage).bytes)
      ((Value.size h.contentOffset).bytes ++ post)
      (by simp only [BaseMessageHeader.bytes, List.append_assoc])
      (by rw [length_bytes]; rfl)
  have hoffset : readValue (h.bytes ++ post) 5 = some (.size h.contentOffset) :=
    readValue_at ((Value.bool h.isForwardMessage).bytes ++ (Value.messageType h.type).bytes)
      post (by simp only [BaseMessageHeader.bytes, List.append_assoc])
      (by rw [List.length_append, length_bytes, length_bytes]; rfl)
  rw [readBase, hforward, htype, hoffset]

/-- Bytes that are the header of a message, whatever content follows them. -/
def IsHeader (hdr : Buffer) (isForwardMessage : Bool) (t : MessageType) : Prop :=
  ∀ content, readBase (hdr ++ content) = some ⟨isForwardMessage, t, hdr.length⟩

theorem length_base (h : BaseMessageHeader) : h.bytes.length = 13 := by
  simp only [BaseMessageHeader.bytes, List.length_append, length_bytes, Value.width]

theorem length_general (h : GeneralMessageHeader) :
    h.bytes.length = sizeofGeneralMessageHeader := by
  simp only [GeneralMessageHeader.bytes, List.length_append, length_base, length_bytes,
    Value.width]
  rfl

theorem length_forward (base : BaseMessageHeader) (callback : EncodedPtr) :
    (forwardMessageHeader base callback).length = sizeofForwardMessageHeader := by
  simp only [forwardMessageHeader, List.length_append, length_base, length_bytes, Value.width]
  rfl

/-- The header of `fetchData` is one. -/
theorem isHeader_general (h : GeneralMessageHeader) : IsHeader h.bytes false h.type := by
  intro content
  rw [length_general, GeneralMessageHeader.bytes]
  simp only [List.append_assoc]
  exact readBase_bytes _ _

/-- **A HEADER WITH A FORWARD HEADER IN FRONT IS A HEADER**, of the same type, and its content
    is where it was. -/
theorem IsHeader.push {hdr : Buffer} {f : Bool} {t : MessageType} (callback : EncodedPtr)
    (n : Nat) (hn : n = hdr.length) :
    IsHeader (forwardMessageHeader ⟨f, t, n⟩ callback ++ hdr) true t := by
  intro content
  rw [List.length_append, length_forward, forwardMessageHeader]
  simp only [List.append_assoc]
  rw [readBase_bytes, hn]

theorem readValue_callback (base : BaseMessageHeader) (callback : EncodedPtr) (post : Buffer) :
    readValue (forwardMessageHeader base callback ++ post) 13 = some (.ptr callback) := by
  refine readValue_at (BaseMessageHeader.bytes
    ⟨true, base.type, sizeofForwardMessageHeader + base.contentOffset⟩) post rfl ?_
  rw [length_base]

/-- The header `fetchData` sent is read back from the front of a reply. -/
theorem readGeneral_bytes (h : GeneralMessageHeader) (post : Buffer) :
    readGeneral (h.bytes ++ post) = some h := by
  have hbase := isHeader_general h post
  obtain ⟨t, data, len, type, counter⟩ := h
  generalize hb : BaseMessageHeader.bytes ⟨false, t, sizeofGeneralMessageHeader⟩ = b at *
  have hlength : b.length = 13 := by rw [← hb, length_base]
  have hdata : readValue (GeneralMessageHeader.bytes ⟨t, data, len, type, counter⟩ ++ post) 13 =
      some (.ptr data) := by
    refine readValue_at b ((Value.ptr len).bytes ++ (Value.ptr type).bytes ++
      (Value.ptr counter).bytes ++ post) ?_ hlength.symm
    simp only [GeneralMessageHeader.bytes, hb, List.append_assoc]
  have hlen : readValue (GeneralMessageHeader.bytes ⟨t, data, len, type, counter⟩ ++ post) 21 =
      some (.ptr len) := by
    refine readValue_at (b ++ (Value.ptr data).bytes) ((Value.ptr type).bytes ++
      (Value.ptr counter).bytes ++ post) ?_ ?_
    · simp only [GeneralMessageHeader.bytes, hb, List.append_assoc]
    · simp only [List.length_append, hlength, length_bytes, Value.width]
  have htype : readValue (GeneralMessageHeader.bytes ⟨t, data, len, type, counter⟩ ++ post) 29 =
      some (.ptr type) := by
    refine readValue_at (b ++ (Value.ptr data).bytes ++ (Value.ptr len).bytes)
      ((Value.ptr counter).bytes ++ post) ?_ ?_
    · simp only [GeneralMessageHeader.bytes, hb, List.append_assoc]
    · simp only [List.length_append, hlength, length_bytes, Value.width]
  have hcounter : readValue (GeneralMessageHeader.bytes ⟨t, data, len, type, counter⟩ ++ post) 37 =
      some (.ptr counter) := by
    refine readValue_at (b ++ (Value.ptr data).bytes ++ (Value.ptr len).bytes ++
      (Value.ptr type).bytes) post ?_ ?_
    · simp only [GeneralMessageHeader.bytes, hb, List.append_assoc]
    · simp only [List.length_append, hlength, length_bytes, Value.width]
  rw [readGeneral, hbase, hdata, hlen, htype, hcounter]

/-! ## The content on the way -/

/-- The content moves with the header in front of it. -/
theorem incNumHops_append (hdr content : Buffer) :
    incNumHops (hdr ++ content) hdr.length = hdr ++ incNumHops content 0 := by
  have htake : (hdr ++ content).take (hdr.length + 12) = hdr ++ content.take 12 := by
    rw [List.take_append, List.take_of_length_le (by omega), Nat.add_sub_cancel_left]
  have hdrop : (hdr ++ content).drop (hdr.length + 16) = content.drop 16 := by
    rw [← List.drop_drop, List.drop_left]
  rw [incNumHops, incNumHops, readValue_skip, htake, hdrop, Nat.zero_add]
  split
  · simp only [List.append_assoc, Nat.zero_add]
  · rfl

theorem incNumHops_message (requester : Nat) (numHops : Int) :
    incNumHops (updateHandlerChainMessage requester numHops) 0 =
      updateHandlerChainMessage requester (numHops + 1) := by
  have hread : readValue (updateHandlerChainMessage requester numHops) (0 + 12) =
      some (.int numHops) :=
    readValue_at ((Value.hostPid requester).bytes) []
      (by rw [List.append_nil]; rfl) (by rw [length_bytes]; rfl)
  have htake : (updateHandlerChainMessage requester numHops).take (0 + 12) =
      (Value.hostPid requester).bytes := by
    rw [updateHandlerChainMessage, List.take_append, length_bytes]
    exact List.append_nil _
  have hdrop : (updateHandlerChainMessage requester numHops).drop (0 + 16) = [] := by
    apply List.drop_of_length_le
    rw [updateHandlerChainMessage, List.length_append, length_bytes, length_bytes]
    exact Nat.le_refl _
  rw [incNumHops, hread]
  simp only
  rw [htake, hdrop, List.append_nil, updateHandlerChainMessage]

/-- The number of processes a message passes before the owner's. -/
def RegionData.hops : RegionData → Nat
  | .remote next _ => next.hops + 1
  | _ => 0

/-- The data at the end of the chain. -/
def RegionData.owner : RegionData → RegionData
  | .remote next _ => next.owner
  | .raw serve => .raw serve
  | .split serve part coordPart => .split serve part coordPart

def RegionData.isDataSplit : RegionData → Bool
  | .split _ _ _ => true
  | _ => false

/-- The content of a message after it has passed that many processes. -/
def passed (t : MessageType) : Nat → Buffer → Buffer
  | 0, content => content
  | k + 1, content => passed t k (if t = .UPDATEHANDLERCHAIN then incNumHops content 0 else content)

theorem passed_of_ne {t : MessageType} (ht : t ≠ .UPDATEHANDLERCHAIN) (k : Nat)
    (content : Buffer) : passed t k content = content := by
  induction k with
  | zero => rfl
  | succ k ih => rw [passed, if_neg ht, ih]

/-- The hop count of a chain update grows by one at each process it passes. -/
theorem passed_message (requester : Nat) (k : Nat) (numHops : Int) :
    passed .UPDATEHANDLERCHAIN k (updateHandlerChainMessage requester numHops) =
      updateHandlerChainMessage requester (numHops + k) := by
  induction k generalizing numHops with
  | zero => rw [passed, Int.natCast_zero, Int.add_zero]
  | succ k ih =>
      rw [passed, if_pos rfl, incNumHops_message, ih]
      congr 1
      omega

/-! ## Dispatch -/

/-- What the data answers a request with, as long as no process is passed. -/
def RegionData.answer : RegionData → MessageType → Buffer → Buffer
  | .raw serve, t, content => serve t content
  | .split serve part coordPart, t, content =>
      if t = .READCELL ∨ t = .WRITECELL then (part content).answer t (coordPart content)
      else serve t content
  | .remote next _, t, content => next.answer t content

/-- The messages some data, or the data its processes pass them to, has a processor for. -/
def RegionData.supports : RegionData → MessageType → Bool
  | .raw _, t => (rawReplyType t).isSome
  | .split _ _ _, t => t = .READCELL || t = .WRITECELL || (splitReplyType t).isSome
  | .remote next _, t => forwards t && next.supports t

/-- Cells are read and written through every kind of data. -/
theorem supports_cell {t : MessageType} (ht : t = .READCELL ∨ t = .WRITECELL) (d : RegionData) :
    d.supports t = true := by
  induction d with
  | raw serve => rcases ht with rfl | rfl <;> rfl
  | split serve part coordPart ih => rcases ht with rfl | rfl <;> rfl
  | remote next proxy ih =>
      rw [RegionData.supports, ih, Bool.and_true]
      rcases ht with rfl | rfl <;> rfl

theorem forwards_repliesTo {t : MessageType} (ht : forwards t = true) : repliesTo t = true := by
  cases t <;> first | rfl | cases ht

theorem rawReplyType_ne {t : MessageType} {r : Option MessageType}
    (h : rawReplyType t = some r) : r ≠ some .CREATEREMOTEREGIONDATAREPLY := by
  cases t <;> simp_all [rawReplyType] <;> simp [← h]

theorem splitReplyType_ne {t : MessageType} {r : Option MessageType}
    (h : splitReplyType t = some r) : r ≠ some .CREATEREMOTEREGIONDATAREPLY := by
  cases t <;> simp_all [splitReplyType] <;> simp [← h]

/-- A message served: dispatched with its type and content, and answered behind its header. -/
def Serves (d : RegionData) (t : MessageType) (hdr seen : Buffer) (out : Option Delivery) :
    Prop :=
  ∃ replyType, replyType ≠ some .CREATEREMOTEREGIONDATAREPLY ∧
    out = some ⟨t, seen, hdr ++ d.answer t seen, replyType⟩

/-- A reply goes back over a hop: the header of the hop comes off. -/
theorem forwardReply_push {hdr : Buffer} {t : MessageType} {base : BaseMessageHeader}
    (caller : EncodedPtr) (ht : repliesTo t = true)
    (hbase : IsHeader (forwardMessageHeader base caller ++ hdr) true t)
    (seen reply : Buffer) {replyType : Option MessageType}
    (hreply : replyType ≠ some .CREATEREMOTEREGIONDATAREPLY) :
    forwardReply caller
        ⟨t, seen, forwardMessageHeader base caller ++ hdr ++ reply, replyType⟩ =
      some ⟨t, seen, hdr ++ reply, replyType⟩ := by
  have hcallback : readValue (forwardMessageHeader base caller ++ hdr ++ reply) 13 =
      some (.ptr caller) := by
    rw [List.append_assoc]
    exact readValue_callback base caller _
  have hdrop : (forwardMessageHeader base caller ++ hdr ++ reply).drop
      sizeofForwardMessageHeader = hdr ++ reply := by
    rw [← length_forward base caller, List.append_assoc, List.drop_left]
  simp only [forwardReply, hbase reply, Option.bind_eq_bind, Option.bind_some, hcallback, ht,
    hdrop, hreply, decide_false, Bool.not_true, Bool.or_self, Bool.false_eq_true, if_false,
    decide_true, Bool.and_self, if_true]
  rfl

/-- What an owner replies is put behind the header of the message. -/
theorem sendReply_header {hdr : Buffer} {f : Bool} {t : MessageType} (content reply : Buffer) :
    sendReply ⟨f, t, hdr.length⟩ (hdr ++ content) reply = hdr ++ reply := by
  rw [sendReply, List.take_left]

/-- **DISPATCH**: by induction on the data, a message whose type the data supports is served,
    behind whatever header it comes with. -/
theorem process_serves (d : RegionData) :
    ∀ (caller : EncodedPtr) (t : MessageType) (hdr : Buffer) (f : Bool) (content : Buffer),
      d.supports t = true → IsHeader hdr f t →
      Serves d t hdr (passed t d.hops content) (d.process caller t (hdr ++ content)) := by
  induction d with
  | raw serve =>
      intro caller t hdr f content hsupports hhdr
      obtain ⟨replyType, hreply⟩ := Option.isSome_iff_exists.mp hsupports
      refine ⟨replyType, rawReplyType_ne hreply, ?_⟩
      simp only [RegionData.process, hreply, hhdr content, Option.bind_eq_bind,
        Option.bind_some, List.drop_left, sendReply_header]
      rfl
  | split serve part coordPart ih =>
      intro caller t hdr f content hsupports hhdr
      by_cases hcell : t = .READCELL ∨ t = .WRITECELL
      · -- the cell's part serves the message, which has its type and header still
        have hne : t ≠ .UPDATEHANDLERCHAIN := by
          rintro rfl
          simp at hcell
        obtain ⟨replyType, hreply, hout⟩ := ih content caller t hdr f (coordPart content)
          (supports_cell hcell _) hhdr
        refine ⟨replyType, hreply, ?_⟩
        rw [passed_of_ne hne] at hout
        simp only [RegionData.process, hhdr content, Option.bind_eq_bind, Option.bind_some,
          List.drop_left, List.take_left, if_pos hcell, hout, RegionData.answer,
          passed_of_ne hne]
        rfl
      · have hsome : (splitReplyType t).isSome = true := by
          simp only [not_or] at hcell
          simpa [RegionData.supports, hcell.1, hcell.2] using hsupports
        obtain ⟨replyType, hreply⟩ := Option.isSome_iff_exists.mp hsome
        refine ⟨replyType, splitReplyType_ne hreply, ?_⟩
        simp only [RegionData.process, hreply, hhdr content, Option.bind_eq_bind,
          Option.bind_some, List.drop_left, if_neg hcell, sendReply_header, RegionData.answer]
        rfl
  | remote next proxy ih =>
      intro caller t hdr f content hsupports hhdr
      obtain ⟨hforwards, hnext⟩ := Bool.and_eq_true_iff.mp hsupports
      have hpush : IsHeader (forwardMessageHeader ⟨f, t, hdr.length⟩ caller ++ hdr) true t :=
        IsHeader.push caller _ rfl
      obtain ⟨replyType, hreply, hout⟩ := ih proxy t _ true
        (if t = .UPDATEHANDLERCHAIN then incNumHops content 0 else content) hnext hpush
      have hbuf : (if t = .UPDATEHANDLERCHAIN then incNumHops (hdr ++ content) hdr.length
          else hdr ++ content) =
          hdr ++ (if t = .UPDATEHANDLERCHAIN then incNumHops content 0 else content) := by
        split
        · exact incNumHops_append hdr content
        · rfl
      refine ⟨replyType, hreply, ?_⟩
      rw [List.append_assoc] at hout
      simp only [RegionData.process, if_pos hforwards, hhdr content, Option.bind_eq_bind,
        Option.bind_some, hbuf, hout]
      exact forwardReply_push caller (forwards_repliesTo hforwards) hpush _ _ hreply

theorem answer_owner (d : RegionData) : d.answer = d.owner.answer := by
  induction d with
  | raw serve => rfl
  | split serve part coordPart ih => rfl
  | remote next proxy ih =>
      ext t content
      rw [RegionData.answer, ih, RegionData.owner]

/-- A message that every process forwards is supported if the owner supports it. -/
theorem supports_of_owner {t : MessageType} {d : RegionData}
    (hforwards : d.hops = 0 ∨ forwards t = true) (howner : d.owner.supports t = true) :
    d.supports t = true := by
  induction d with
  | raw serve => exact howner
  | split serve part coordPart ih => exact howner
  | remote next proxy ih =>
      have ht : forwards t = true := by
        rcases hforwards with hzero | ht
        · exact absurd hzero (Nat.succ_ne_zero _)
        · exact ht
      rw [RegionData.supports, ht, Bool.true_and]
      exact ih (Or.inr ht) howner

theorem hops_owner (d : RegionData) : d.owner.hops = 0 := by
  induction d with
  | raw serve => rfl
  | split serve part coordPart ih => rfl
  | remote next proxy ih => exact ih

/-- The owner of a reference has a processor for what the reference emits. -/
theorem owner_supports {t : MessageType} {d : RegionData}
    (hemits : emits d.owner.isDataSplit t = true ∨ t = .GETHOSTLIST)
    (hcache : t = .READCELLCACHE → d.owner.isDataSplit = false) :
    d.owner.supports t = true := by
  have hhops := hops_owner d
  generalize d.owner = o at *
  cases o with
  | raw serve =>
      rcases hemits with hemits | rfl
      · cases t <;> first | rfl | cases hemits
      · rfl
  | split serve part coordPart =>
      have hne : t ≠ .READCELLCACHE := fun ht => Bool.noConfusion (hcache ht)
      rcases hemits with hemits | rfl
      · cases t <;> first | rfl | exact absurd rfl hne | cases hemits
      · rfl
  | remote next proxy => exact absurd hhops (Nat.succ_ne_zero _)

/-- Every process forwards what a reference emits, but for the requests of a cache. -/
theorem emits_forwards {t : MessageType} {isDataSplit : Bool}
    (hemits : emits isDataSplit t = true ∨ t = .GETHOSTLIST) (hne : t ≠ .READCELLCACHE) :
    forwards t = true := by
  rcases hemits with hemits | rfl
  · cases isDataSplit <;> cases t <;> first | rfl | exact absurd rfl hne | cases hemits
  · rfl

/-! ## Requests over a chain -/

/-- **REQUESTS REACH THE OWNER AND REPLIES THE REQUESTER**: over any chain of processes, a
    message the reference emits is dispatched by the owner under its type, with its content, a
    chain update with its hop count raised by the processes passed; and the requester gets the
    header it sent with the owner's answer behind it.  Lines of a cache are asked for from
    the owner itself, where it has the cells. -/
theorem fetchData_delivers (d : RegionData) (proxy : EncodedPtr) (header : GeneralMessageHeader)
    (msg : Buffer)
    (hemits : emits d.owner.isDataSplit header.type = true ∨ header.type = .GETHOSTLIST)
    (hcache : header.type = .READCELLCACHE → d.hops = 0 ∧ d.owner.isDataSplit = false) :
    ∃ out, fetchData d proxy header msg = some (header, out) ∧ out.type = header.type ∧
      (header.type ≠ .UPDATEHANDLERCHAIN → out.content = msg) ∧
      (∀ requester numHops, header.type = .UPDATEHANDLERCHAIN →
        msg = updateHandlerChainMessage requester numHops →
        out.content = updateHandlerChainMessage requester (numHops + d.hops)) ∧
      out.reply = header.bytes ++ d.owner.answer header.type out.content := by
  have howner := owner_supports hemits fun ht => (hcache ht).2
  have hforwards : d.hops = 0 ∨ forwards header.type = true := by
    by_cases ht : header.type = .READCELLCACHE
    · exact Or.inl (hcache ht).1
    · exact Or.inr (emits_forwards hemits ht)
  have hhdr := isHeader_general header
  obtain ⟨replyType, hreply, hout⟩ := process_serves d proxy header.type header.bytes false msg
    (supports_of_owner hforwards howner) hhdr
  refine ⟨⟨header.type, passed header.type d.hops msg,
    header.bytes ++ d.answer header.type (passed header.type d.hops msg), replyType⟩,
    ?_, rfl, ?_, ?_, ?_⟩
  · simp only [fetchData, hout, Option.bind_eq_bind, Option.bind_some, receiveReply,
      hhdr _, readGeneral_bytes, hreply, decide_false, Bool.or_self, Bool.false_eq_true, if_false]
    rfl
  · intro hne
    exact passed_of_ne hne _ _
  · rintro requester numHops ht rfl
    simp only [ht]
    exact passed_message requester d.hops numHops
  · rw [answer_owner]

/-- A raw owner behind two processes, which echoes the content of a request. -/
def twoProcesses : RegionData :=
  .remote (.remote (.raw fun _ content => content) 71) 72

theorem fetchData_delivers_readCell :
    ∃ out, fetchData twoProcesses 73 ⟨.READCELL, 1, 2, 3, 0⟩ (Value.element 5).bytes =
        some (⟨.READCELL, 1, 2, 3, 0⟩, out) ∧ out.content = (Value.element 5).bytes := by
  obtain ⟨out, hout, _, hcontent, _⟩ := fetchData_delivers twoProcesses 73
    ⟨.READCELL, 1, 2, 3, 0⟩ (Value.element 5).bytes (Or.inl rfl) (fun h => by cases h)
  exact ⟨out, hout, hcontent (by decide)⟩

/-- **THE HOP COUNT IS NOT WHAT WAS SENT**: a process that forwards a chain update counts itself
    in the message before the owner sees it; and no process forwards the request of a cache. -/
theorem forwarded_update_content_changes :
    emits twoProcesses.owner.isDataSplit .UPDATEHANDLERCHAIN = true ∧
    (fetchData twoProcesses 73 ⟨.UPDATEHANDLERCHAIN, 1, 2, 3, 0⟩
        (updateHandlerChainMessage 9 1)).map (fun out => out.2.content) =
      some (updateHandlerChainMessage 9 3) ∧
    updateHandlerChainMessage 9 3 ≠ updateHandlerChainMessage 9 1 ∧
    emits twoProcesses.owner.isDataSplit .READCELLCACHE = true ∧
    fetchData twoProcesses 73 ⟨.READCELLCACHE, 1, 2, 3, 0⟩ (Value.element 5).bytes = none := by
  refine ⟨rfl, ?_, by decide, rfl, rfl⟩
  decide +kernel

end PbForwarding
