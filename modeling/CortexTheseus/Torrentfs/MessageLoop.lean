import CortexTheseus.Common.Hex
import Mathlib.Data.List.Basic

/-!
# The peer message loop

`TorrentFS.runMessageLoop` (fs.go:348-405). The protocol constants, the size bound and the
RLP decoders are not under src/ and are parameters; the effects are recorded in order and
logging is left out.
-/

namespace CortexTheseus.Torrentfs

open CortexTheseus.Common

/-- A packet as `rw.ReadMsg` returns it. -/
structure Packet where
  code : Nat
  size : Nat
  payload : List UInt8
  deriving DecidableEq, Repr

structure Query where
  hash : String
  size : Nat
  deriving DecidableEq, Repr

/-- What the loop does to the rest of the system. -/
inductive LoopEffect (PeerInfo : Type)
  /-- `p.peerInfo = info` -/
  | setPeerInfo (info : PeerInfo)
  /-- `fs.wakeup(context.Background(), hash)` -/
  | wakeup (hash : String)
  deriving DecidableEq, Repr

section

variable {PeerInfo MsgInfo : Type}
variable (protocolVersion maxMessageSize statusCode queryCode msgCode : Nat)
variable (decodeStatus : Packet → Option PeerInfo) (decodeQuery : Packet → Option Query)
  (decodeMsg : Packet → Option MsgInfo)

/-- `runMessageLoop` on the packets `rw.ReadMsg` returns before it fails with `readErr`:
the error it returns and its effects, in order. -/
def runMessageLoop (readErr : String) : List Packet → String × List (LoopEffect PeerInfo)
  | [] => (readErr, [])
  | packet :: rest =>
      if maxMessageSize < packet.size then ("oversized message received", [])
      else if packet.code = statusCode then
        match decodeStatus packet with
        | none => ("invalid peer state", [])
        | some info =>
            let r := runMessageLoop readErr rest
            (r.1, .setPeerInfo info :: r.2)
      else if packet.code = queryCode then
        if 4 ≤ protocolVersion then
          match decodeQuery packet with
          | none => ("invalid msg", [])
          | some info =>
              if !isHexAddress info.hash then ("invalid address", [])
              else
                let r := runMessageLoop readErr rest
                (r.1, .wakeup info.hash :: r.2)
        else runMessageLoop readErr rest
      else if packet.code = msgCode then
        if 4 < protocolVersion then
          match decodeMsg packet with
          | none => ("invalid msg", [])
          | some _ => runMessageLoop readErr rest
        else runMessageLoop readErr rest
      else ("invalid code", [])

/-! ### The law, in the words of the protocol -/

/-- A packet the loop refuses: oversized, of an unknown code, or a Status, Query (from
version 4) or Msg (above version 4) payload that does not decode, or a decoded Query
whose hash is malformed. -/
def Rejected (packet : Packet) : Prop :=
  maxMessageSize < packet.size ∨
    (packet.code ≠ statusCode ∧ packet.code ≠ queryCode ∧ packet.code ≠ msgCode) ∨
    (packet.code = statusCode ∧ decodeStatus packet = none) ∨
    (packet.code = queryCode ∧ 4 ≤ protocolVersion ∧
      ∀ info, decodeQuery packet = some info → isHexAddress info.hash = false) ∨
    (packet.code = msgCode ∧ 4 < protocolVersion ∧ decodeMsg packet = none)

/-- The effects of an accepted packet: a decoded Status becomes `p.peerInfo`, and the
hash of a decoded Query (from version 4) is woken up, whatever the Query's size. -/
def packetEffects (packet : Packet) : List (LoopEffect PeerInfo) :=
  (if packet.code = statusCode then (decodeStatus packet).toList.map .setPeerInfo else []) ++
    (if packet.code = queryCode ∧ 4 ≤ protocolVersion then
      (decodeQuery packet).toList.map (.wakeup ·.hash) else [])

variable {statusCode queryCode msgCode}

theorem runMessageLoop_accepted (hcodes : statusCode ≠ queryCode ∧ statusCode ≠ msgCode ∧
      queryCode ≠ msgCode) (readErr : String) {packet : Packet}
    (h : ¬ Rejected protocolVersion maxMessageSize statusCode queryCode msgCode decodeStatus
      decodeQuery decodeMsg packet) (rest : List Packet) :
    runMessageLoop protocolVersion maxMessageSize statusCode queryCode msgCode decodeStatus
        decodeQuery decodeMsg readErr (packet :: rest) =
      let r := runMessageLoop protocolVersion maxMessageSize statusCode queryCode msgCode
        decodeStatus decodeQuery decodeMsg readErr rest
      (r.1, packetEffects protocolVersion statusCode queryCode decodeStatus decodeQuery packet ++ r.2) := by
  obtain ⟨h1, h2, h3⟩ := hcodes
  simp only [Rejected, not_or, not_and, not_le, not_lt, not_forall] at h
  obtain ⟨hsize, hcode, hstatus, hquery, hmsg⟩ := h
  simp only [runMessageLoop, if_neg (Nat.not_lt.mpr hsize), packetEffects]
  by_cases hs : packet.code = statusCode
  · obtain ⟨info, hi⟩ := Option.ne_none_iff_exists'.mp (hstatus hs)
    simp [hs, hi, h1]
  by_cases hq : packet.code = queryCode
  · subst hq
    by_cases hv : 4 ≤ protocolVersion
    · obtain ⟨info, hi, hhex⟩ := hquery rfl hv
      simp [hs, hv, hi, hhex, h3]
    · simp [hs, hv, h3]
  by_cases hm : packet.code = msgCode
  · by_cases hv : 4 < protocolVersion
    · obtain ⟨info, hi⟩ := Option.ne_none_iff_exists'.mp (hmsg hm hv)
      simp [hm, hv, hi, Ne.symm h2, Ne.symm h3]
    · simp [hm, hv, Ne.symm h2, Ne.symm h3]
  · exact absurd hm (hcode hs hq)

theorem runMessageLoop_rejected (hcodes : statusCode ≠ queryCode ∧ statusCode ≠ msgCode ∧
      queryCode ≠ msgCode) {packet : Packet}
    (h : Rejected protocolVersion maxMessageSize statusCode queryCode msgCode decodeStatus
      decodeQuery decodeMsg packet) (readErr readErr' : String) (rest : List Packet) :
    runMessageLoop protocolVersion maxMessageSize statusCode queryCode msgCode decodeStatus
        decodeQuery decodeMsg readErr (packet :: rest) =
      ((runMessageLoop protocolVersion maxMessageSize statusCode queryCode msgCode decodeStatus
        decodeQuery decodeMsg readErr' [packet]).1, []) := by
  obtain ⟨h1, h2, h3⟩ := hcodes
  by_cases hsize : maxMessageSize < packet.size
  · simp [runMessageLoop, hsize]
  rcases h with hsize' | ⟨hs, hq, hm⟩ | ⟨hs, hd⟩ | ⟨hq, hv, hd⟩ | ⟨hm, hv, hd⟩
  · exact absurd hsize' hsize
  · simp [runMessageLoop, hsize, hs, hq, hm]
  · simp [runMessageLoop, hsize, hs, hd]
  · have hs : packet.code ≠ statusCode := fun he => h1 (he ▸ hq)
    cases hi : decodeQuery packet with
    | none => simp [runMessageLoop, hsize, hq, hv, hi, Ne.symm h1]
    | some info => simp [runMessageLoop, hsize, hq, hv, hi, hd info hi, Ne.symm h1]
  · have hs : packet.code ≠ statusCode := fun he => h2 (he ▸ hm)
    have hq : packet.code ≠ queryCode := fun he => h3 (he ▸ hm)
    simp [runMessageLoop, hsize, hm, hv, hd, Ne.symm h2, Ne.symm h3]

/-- For every protocol version, size bound, distinct codes and decoders: the loop
processes the packets in arrival order and stops at the first rejected one. When none is
rejected it returns the read error; otherwise it returns that packet's own error. Its
effects are exactly those of the accepted packets before it, in order; the rejected
packet and every later one have none. -/
theorem runMessageLoop_law (hcodes : statusCode ≠ queryCode ∧ statusCode ≠ msgCode ∧
      queryCode ≠ msgCode) :
    (∀ (readErr : String) (packets : List Packet),
      (∀ packet ∈ packets, ¬ Rejected protocolVersion maxMessageSize statusCode queryCode msgCode
        decodeStatus decodeQuery decodeMsg packet) →
      runMessageLoop protocolVersion maxMessageSize statusCode queryCode msgCode decodeStatus
          decodeQuery decodeMsg readErr packets =
        (readErr, packets.flatMap
          (packetEffects protocolVersion statusCode queryCode decodeStatus decodeQuery))) ∧
    (∀ (readErr readErr' : String) (pre : List Packet) (packet : Packet) (post : List Packet),
      (∀ p ∈ pre, ¬ Rejected protocolVersion maxMessageSize statusCode queryCode msgCode
        decodeStatus decodeQuery decodeMsg p) →
      Rejected protocolVersion maxMessageSize statusCode queryCode msgCode decodeStatus
        decodeQuery decodeMsg packet →
      runMessageLoop protocolVersion maxMessageSize statusCode queryCode msgCode decodeStatus
          decodeQuery decodeMsg readErr (pre ++ packet :: post) =
        ((runMessageLoop protocolVersion maxMessageSize statusCode queryCode msgCode decodeStatus
            decodeQuery decodeMsg readErr' [packet]).1,
          pre.flatMap (packetEffects protocolVersion statusCode queryCode decodeStatus decodeQuery))) := by
  refine ⟨fun readErr packets h => ?_, fun readErr readErr' pre packet post h hr => ?_⟩
  · induction packets with
    | nil => rfl
    | cons p ps ih =>
        rw [runMessageLoop_accepted protocolVersion maxMessageSize decodeStatus decodeQuery decodeMsg
          hcodes readErr (h p (List.mem_cons_self p ps)) ps,
          ih fun q hq => h q (List.mem_cons_of_mem p hq)]
        rfl
  · induction pre with
    | nil =>
        exact runMessageLoop_rejected protocolVersion maxMessageSize decodeStatus decodeQuery
          decodeMsg hcodes hr readErr readErr' post
    | cons p ps ih =>
        rw [List.cons_append, runMessageLoop_accepted protocolVersion maxMessageSize decodeStatus
          decodeQuery decodeMsg hcodes readErr (h p (List.mem_cons_self p ps)) _,
          ih fun q hq => h q (List.mem_cons_of_mem p hq)]
        rfl

end

theorem runMessageLoop_law_version4 :
    ((0 : Nat) ≠ 1 ∧ (0 : Nat) ≠ 2 ∧ (1 : Nat) ≠ 2) ∧
    ((∀ (readErr : String) (packets : List Packet),
      (∀ packet ∈ packets, ¬ Rejected 4 1024 0 1 2 (fun p => some p.size)
        (fun p => some ⟨"6b75cc1354495ec763a6b295ee407ea864a0c292", p.size⟩) (fun _ => some ()) packet) →
      runMessageLoop 4 1024 0 1 2 (fun p => some p.size)
          (fun p => some ⟨"6b75cc1354495ec763a6b295ee407ea864a0c292", p.size⟩) (fun _ => some ())
          readErr packets =
        (readErr, packets.flatMap (packetEffects 4 0 1 (fun p => some p.size)
          (fun p => some ⟨"6b75cc1354495ec763a6b295ee407ea864a0c292", p.size⟩)))) ∧
    (∀ (readErr readErr' : String) (pre : List Packet) (packet : Packet) (post : List Packet),
      (∀ p ∈ pre, ¬ Rejected 4 1024 0 1 2 (fun p => some p.size)
        (fun p => some ⟨"6b75cc1354495ec763a6b295ee407ea864a0c292", p.size⟩) (fun _ => some ()) p) →
      Rejected 4 1024 0 1 2 (fun p => some p.size)
        (fun p => some ⟨"6b75cc1354495ec763a6b295ee407ea864a0c292", p.size⟩) (fun _ => some ()) packet →
      runMessageLoop 4 1024 0 1 2 (fun p => some p.size)
          (fun p => some ⟨"6b75cc1354495ec763a6b295ee407ea864a0c292", p.size⟩) (fun _ => some ())
          readErr (pre ++ packet :: post) =
        ((runMessageLoop 4 1024 0 1 2 (fun p => some p.size)
            (fun p => some ⟨"6b75cc1354495ec763a6b295ee407ea864a0c292", p.size⟩) (fun _ => some ())
            readErr' [packet]).1,
          pre.flatMap (packetEffects 4 0 1 (fun p => some p.size)
            (fun p => some ⟨"6b75cc1354495ec763a6b295ee407ea864a0c292", p.size⟩))))) :=
  ⟨by decide, runMessageLoop_law 4 1024 _ _ _ (by decide)⟩

end CortexTheseus.Torrentfs
