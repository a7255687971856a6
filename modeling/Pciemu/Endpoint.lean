import Pciemu.TcpClient
import Pciemu.Numerals

namespace Pciemu.TcpClient

open Numerals

structure CString where
  bytes : List UInt8
  ne_zero : 0 ∉ bytes

/-- What `sprintf` makes of `"%s\\n"`, without the zero at its end; the C library prints `(null)` for
a NULL pointer. -/
def formatLine (arg : Option CString) : List UInt8 :=
  (match arg with
    | none => ascii "(null)"
    | some s => s.bytes) ++ [10]

def severIpSize : ℕ := 32

def severPortStrSize : ℕ := 20

structure Endpoint where
  addr : ℕ
  port : ℕ
  deriving DecidableEq

/-- The bytes stored to the two buffers, `fd` and the return value, and what `connect` was given. Past
the end of a buffer, this is what happens if nothing else is lost with the bytes overwritten. -/
structure Linked where
  ipStored : ℕ
  portStored : ℕ
  fd : ℤ
  ret : ℤ
  endpoint : Option Endpoint

-- `linkEmuServer` has `fd` and the return value, here is what becomes of the two texts
def linkEmuServerTo (fd : ℤ) (ip port : Option CString) (link : Link) : Linked :=
  let (fd', ret) := linkEmuServer fd link
  if fd > 0 then ⟨0, 0, fd', ret, none⟩
  else
    let severIp := formatLine ip
    let severPortStr := formatLine port
    let severPort := atoi severPortStr
    let sddr : Endpoint := ⟨inetAddr severIp, htons severPort⟩
    ⟨severIp.length + 1, severPortStr.length + 1, fd', ret, if link.socket < 0 then none else some sddr⟩

def defaultEndpoint : Endpoint := ⟨inetAddr (ascii "127.0.0.1"), 4444⟩

structure EndpointSelected (ip port : Option CString) (r : Linked) : Prop where
  ipFits : r.ipStored ≤ severIpSize
  portFits : r.portStored ≤ severPortStrSize
  ipAbsent : ip = none → ∀ e, r.endpoint = some e → e.addr = defaultEndpoint.addr
  portAbsent : port = none → ∀ e, r.endpoint = some e → e.port = defaultEndpoint.port
  portPresent : ∀ s, port = some s →
    (∃ n e, Denotes s.bytes n ∧ 1 ≤ n ∧ n ≤ 65535 ∧ r.endpoint = some e ∧ e.port = n) ∨ r.ret ≠ 0 ∧ r.fd < 0

def PortNumber (s : CString) : Prop := ∃ n, Denotes s.bytes n ∧ 1 ≤ n ∧ n ≤ 65535

section Link

variable {fd : ℤ} (hfd : fd < 0) (ip port : Option CString) (link : Link)

include hfd

theorem linkEmuServerTo_failed (hs : link.socket < 0) : linkEmuServerTo fd ip port link =
    ⟨(formatLine ip).length + 1, (formatLine port).length + 1, link.socket, -1, none⟩ := by
  simp only [linkEmuServerTo, linkEmuServer, if_neg (by omega : ¬fd > 0), if_pos hs]

theorem linkEmuServerTo_tried (hs : 0 ≤ link.socket) : ∃ ret, linkEmuServerTo fd ip port link =
    ⟨(formatLine ip).length + 1, (formatLine port).length + 1, link.socket, ret,
      some ⟨inetAddr (formatLine ip), htons (atoi (formatLine port))⟩⟩ := by
  simp only [linkEmuServerTo, linkEmuServer, if_neg (by omega : ¬fd > 0), if_neg (by omega : ¬link.socket < 0)]
  split_ifs
  · exact ⟨-1, rfl⟩
  · exact ⟨0, rfl⟩

end Link

theorem formatLine_stored (arg : Option CString) (size : ℕ) (h : 8 ≤ size) :
    (formatLine arg).length + 1 ≤ size ↔ ∀ s, arg = some s → s.bytes.length + 2 ≤ size := by
  cases arg with
  | none =>
    have hlen : (formatLine none).length = 7 := by decide
    rw [hlen]
    exact ⟨fun _ _ he => (by cases he), fun _ => h⟩
  | some s =>
    have hlen : (formatLine (some s)).length = s.bytes.length + 1 := List.length_append
    rw [hlen]
    exact ⟨fun hle t ht => Option.some.inj ht ▸ hle, fun hall => hall s rfl⟩

def TextsFit (ip port : Option CString) : Prop :=
  (∀ s, ip = some s → s.bytes.length ≤ 30) ∧ ∀ s, port = some s → s.bytes.length ≤ 18

theorem stored_iff (ip port : Option CString) : (formatLine ip).length + 1 ≤ severIpSize ∧
    (formatLine port).length + 1 ≤ severPortStrSize ↔ TextsFit ip port := by
  rw [formatLine_stored ip severIpSize (by decide), formatLine_stored port severPortStrSize (by decide)]
  constructor
  · rintro ⟨hip, hport⟩
    exact ⟨fun s hs => Nat.le_of_add_le_add_right (hip s hs), fun s hs => Nat.le_of_add_le_add_right (hport s hs)⟩
  · rintro ⟨hip, hport⟩
    exact ⟨fun s hs => Nat.add_le_add_right (hip s hs) 2, fun s hs => Nat.add_le_add_right (hport s hs) 2⟩

theorem null_endpoint : inetAddr (formatLine none) ≠ defaultEndpoint.addr ∧
    htons (atoi (formatLine none)) ≠ defaultEndpoint.port := by decide

section Selected

variable {fd : ℤ} (hfd : fd < 0) (ip port : Option CString) (link : Link)

include hfd

theorem selected_failed (hs : link.socket < 0) :
    EndpointSelected ip port (linkEmuServerTo fd ip port link) ↔ TextsFit ip port := by
  rw [linkEmuServerTo_failed hfd ip port link hs, ← stored_iff]
  constructor
  · intro h
    exact ⟨h.ipFits, h.portFits⟩
  · rintro ⟨hip, hport⟩
    refine ⟨hip, hport, ?_, ?_, ?_⟩
    · intro _ e hnone
      cases hnone
    · intro _ e hnone
      cases hnone
    · intro _ _
      exact .inr ⟨(by decide : (-1 : ℤ) ≠ 0), hs⟩

theorem selected_tried (hs : 0 ≤ link.socket) :
    EndpointSelected ip port (linkEmuServerTo fd ip port link) ↔
      TextsFit ip port ∧ ip.isSome ∧ ∃ s, port = some s ∧ PortNumber s := by
  obtain ⟨ret, he⟩ := linkEmuServerTo_tried hfd ip port link hs
  rw [he, ← stored_iff]
  constructor
  · intro h
    refine ⟨⟨h.ipFits, h.portFits⟩, ?_, ?_⟩
    · cases ip with
      | none => exact absurd (h.ipAbsent rfl _ rfl) null_endpoint.1
      | some s => rfl
    · cases port with
      | none => exact absurd (h.portAbsent rfl _ rfl) null_endpoint.2
      | some s =>
        rcases h.portPresent s rfl with ⟨n, e, hn, h1, h2, -⟩ | ⟨-, hneg⟩
        · exact ⟨s, rfl, n, hn, h1, h2⟩
        · exact absurd hneg (not_lt.mpr hs)
  · rintro ⟨⟨hip, hport⟩, hsome, s, rfl, n, hn, h1, h2⟩
    refine ⟨hip, hport, ?_, ?_, ?_⟩
    · rintro rfl
      cases hsome
    · intro hnone
      cases hnone
    · rintro t ⟨⟩
      exact .inl ⟨n, _, hn, h1, h2, rfl, port_denotes hn h2⟩

end Selected

theorem endpoint_selected_iff (fd : ℤ) (hfd : fd < 0) (ip port : Option CString) (link : Link) :
    EndpointSelected ip port (linkEmuServerTo fd ip port link) ↔
      TextsFit ip port ∧ (link.socket < 0 ∨ ip.isSome ∧ ∃ s, port = some s ∧ PortNumber s) := by
  rcases lt_or_ge link.socket 0 with hs | hs
  · rw [selected_failed hfd ip port link hs]
    simp [hs]
  · rw [selected_tried hfd ip port link hs, or_iff_right (not_lt.mpr hs)]

theorem endpoint_selected_given :
    let ip : CString := ⟨ascii "10.0.0.2", by decide⟩
    let port : CString := ⟨ascii "08080", by decide⟩
    let r := linkEmuServerTo (-1) (some ip) (some port) ⟨7, 0⟩
    EndpointSelected (some ip) (some port) r ∧ r.endpoint = some ⟨0x0a000002, 8080⟩ := by
  intro ip port r
  refine ⟨(endpoint_selected_iff (-1) (by decide) (some ip) (some port) ⟨7, 0⟩).mpr ⟨⟨?_, ?_⟩, ?_⟩, by decide⟩
  · rintro s ⟨⟩
    decide
  · rintro s ⟨⟩
    decide
  · exact .inr ⟨rfl, port, rfl, 8080, ⟨by decide, by decide, by decide⟩, by decide, by decide⟩

theorem endpoint_misread :
    let ip : CString := ⟨ascii "10.0.0.2", by decide⟩
    let port : CString := ⟨ascii "65616", by decide⟩
    let long : CString := ⟨List.replicate 31 49, by decide⟩
    let absent := linkEmuServerTo (-1) none none ⟨7, 0⟩
    let wrapped := linkEmuServerTo (-1) (some ip) (some port) ⟨7, -1⟩
    let overflown := linkEmuServerTo (-1) (some long) (some port) ⟨7, 0⟩
    (¬EndpointSelected none none absent ∧ absent.endpoint = some ⟨inaddrNone, 0⟩) ∧
      (¬EndpointSelected (some ip) (some port) wrapped ∧ wrapped.endpoint = some ⟨0x0a000002, 80⟩ ∧ wrapped.fd = 7) ∧
      ¬EndpointSelected (some long) (some port) overflown ∧ overflown.ipStored = 33 := by
  intro ip port long absent wrapped overflown
  have hvalue : valueOf 10 port.bytes = 65616 := by decide
  have hstored : overflown.ipStored = 33 := by decide
  refine ⟨⟨?_, by decide⟩, ⟨?_, by decide, by decide⟩, ?_, hstored⟩
  · intro h
    exact null_endpoint.1 (h.ipAbsent rfl _ rfl)
  · intro h
    rcases h.portPresent port rfl with ⟨n, e, hn, -, hle, -⟩ | ⟨-, hneg⟩
    · have hval := hn.2.2
      omega
    · exact absurd hneg (by decide)
  · intro h
    have hfits := h.ipFits
    rw [hstored] at hfits
    exact absurd hfits (by decide)

end Pciemu.TcpClient
