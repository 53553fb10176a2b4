/-
# The text of a multicast message

`src/c/mcast/mcast.c`, the receiving side: every datagram is received into one buffer of 512
bytes, which is never cleared, and printed as a C string, without regard to the length that
`recvfrom` returned.
-/
import LeakimMisc.ByteBlock
import Mathlib.Data.List.Induction

open ByteBlock

namespace Mcast

/-! ## The loop -/

/-- `char buf[512]`. -/
structure Buf where
  bytes : List UInt8
  length_eq : bytes.length = 512
  deriving DecidableEq

/-- A datagram: its sender as `inet_ntoa` writes it, and its bytes. -/
structure Datagram where
  peer : List UInt8
  bytes : List UInt8
  deriving DecidableEq

/-- The outcome of a call of `recvfrom`. -/
inductive Recv
  | error
  | datagram (d : Datagram)
  deriving DecidableEq

/-- `recvfrom(sd, buf, sizeof buf, ...)`: what does not fit is lost. -/
def recvfrom (buf : Buf) (bytes : List UInt8) : Buf where
  bytes := bytes.take 512 ++ buf.bytes.drop bytes.length
  length_eq := by
    have hbuf := buf.length_eq
    rw [List.length_append, List.length_take, List.length_drop]
    omega

/-- `Received multicast from %s: %s` and a new line. -/
def line (peer msg : List UInt8) : List UInt8 :=
  "Received multicast from ".toUTF8.toList ++ (peer ++ (": ".toUTF8.toList ++ (msg ++ [10])))

/-- `printf` of the line; `none` if it reads past the end of `buf`. -/
def print (peer : List UInt8) (buf : Buf) : Option (List UInt8) := (text buf.bytes).map (line peer)

/-- The loop: what is printed for each datagram. -/
def run : Buf → List Recv → List (Option (List UInt8))
  | _, [] => []
  | buf, .error :: rest => run buf rest
  | buf, .datagram d :: rest =>
    print d.peer (recvfrom buf d.bytes) :: run (recvfrom buf d.bytes) rest

/-- The datagrams that are received. -/
def datagrams (rs : List Recv) : List Datagram :=
  rs.filterMap fun
    | .error => none
    | .datagram d => some d

/-! ## The bytes behind a datagram -/

/-- Byte `i` of the buffer when `earlier` have been received: it is from the last of them that
is long enough, or it was never written. -/
def leftover (buf : Buf) (earlier : List Datagram) (i : ℕ) : Option UInt8 :=
  match earlier.reverse.find? fun d => i < d.bytes.length with
  | some d => d.bytes[i]?
  | none => buf.bytes[i]?

theorem recvfrom_getElem? (buf : Buf) {bytes : List UInt8} {i : ℕ} (hi : i < 512) :
    (recvfrom buf bytes).bytes[i]? =
      if i < bytes.length then bytes[i]? else buf.bytes[i]? := by
  show (bytes.take 512 ++ buf.bytes.drop bytes.length)[i]? = _
  by_cases h : i < bytes.length
  · rw [if_pos h, List.getElem?_append_left (by rw [List.length_take]; omega),
      List.getElem?_take_of_lt hi]
  · have hshort : bytes.take 512 = bytes := List.take_of_length_le (by omega)
    rw [if_neg h, hshort, List.getElem?_append_right (by omega), List.getElem?_drop,
      show bytes.length + (i - bytes.length) = i by omega]

theorem foldl_recvfrom_getElem? (buf : Buf) (earlier : List Datagram) {i : ℕ} (hi : i < 512) :
    (earlier.foldl (fun b d => recvfrom b d.bytes) buf).bytes[i]? = leftover buf earlier i := by
  induction earlier using List.reverseRecOn with
  | nil => rfl
  | append_singleton earlier d ih =>
    rw [List.foldl_append, List.foldl_cons, List.foldl_nil, recvfrom_getElem? _ hi, ih, leftover,
      leftover, List.reverse_append, List.reverse_singleton, List.singleton_append]
    by_cases h : i < d.bytes.length
    · rw [if_pos h, List.find?_cons_of_pos (by simpa using h)]
    · rw [if_neg h, List.find?_cons_of_neg (by simpa using h)]

/-! ## What is printed -/

theorem line_injective (peer : List UInt8) : Function.Injective (line peer) := by
  intro s t h
  have h := List.append_cancel_left (List.append_cancel_left (List.append_cancel_left h))
  exact List.append_cancel_right h

/-- One turn prints the datagram itself if and only if there is a zero in it or right behind
it. -/
theorem print_recvfrom_iff {buf : Buf} {d : Datagram} (hlen : d.bytes.length ≤ 512) :
    print d.peer (recvfrom buf d.bytes) = some (line d.peer (d.bytes.takeWhile (· ≠ 0))) ↔
      0 ∈ d.bytes ∨ buf.bytes[d.bytes.length]? = some 0 := by
  have hbytes : (recvfrom buf d.bytes).bytes = d.bytes ++ buf.bytes.drop d.bytes.length := by
    show d.bytes.take 512 ++ _ = _
    rw [List.take_of_length_le hlen]
  rw [print, ← Option.map_some, (Option.map_injective (line_injective d.peer)).eq_iff, hbytes,
    text_append_iff, List.head?_drop]

/-- What is printed for a datagram depends on the earlier ones by the buffer alone. -/
theorem run_getElem? {buf : Buf} {rs : List Recv} {k : ℕ} {d : Datagram}
    (hk : (datagrams rs)[k]? = some d) :
    (run buf rs)[k]? = some (print d.peer (recvfrom
      (((datagrams rs).take k).foldl (fun b d => recvfrom b d.bytes) buf) d.bytes)) := by
  induction rs generalizing buf k with
  | nil => exact absurd hk (by simp [datagrams])
  | cons r rest ih =>
    cases r with
    | error => exact ih hk
    | datagram e =>
      have hcons : datagrams (.datagram e :: rest) = e :: datagrams rest := rfl
      rw [hcons] at hk ⊢
      cases k with
      | zero =>
        obtain rfl : e = d := by simpa using hk
        rfl
      | succ k => exact ih (by simpa using hk)

/-- What is left behind the place of a datagram in the buffer is found there. -/
theorem run_getElem?_iff {buf : Buf} {rs : List Recv} {k : ℕ} {d : Datagram}
    (hk : (datagrams rs)[k]? = some d) (hlen : d.bytes.length ≤ 512) :
    (run buf rs)[k]? = some (some (line d.peer (d.bytes.takeWhile (· ≠ 0)))) ↔
      0 ∈ d.bytes ∨ d.bytes.length < 512 ∧
        leftover buf ((datagrams rs).take k) d.bytes.length = some 0 := by
  rw [run_getElem? hk, Option.some_inj, print_recvfrom_iff hlen]
  refine or_congr_right ?_
  by_cases hshort : d.bytes.length < 512
  · rw [foldl_recvfrom_getElem? _ _ hshort, and_iff_right hshort]
  · have hbuf := (((datagrams rs).take k).foldl (fun b d => recvfrom b d.bytes) buf).length_eq
    rw [List.getElem?_eq_none (by omega)]
    simp [hshort]

/-- **The k-th line shows the k-th datagram** if and only if the datagram holds a zero, or the
byte that an earlier datagram, or nobody, has left right behind it is a zero of the buffer; two
runs in which this is so print the same line for the same datagram. -/
theorem run_shows_iff {buf : Buf} {rs : List Recv} {k : ℕ} {d : Datagram}
    (hk : (datagrams rs)[k]? = some d) (hlen : d.bytes.length ≤ 512) :
    ((run buf rs)[k]? = some (some (line d.peer (d.bytes.takeWhile (· ≠ 0)))) ↔
      0 ∈ d.bytes ∨ d.bytes.length < 512 ∧
        leftover buf ((datagrams rs).take k) d.bytes.length = some 0) ∧
    ∀ (buf' : Buf) (rs' : List Recv), (datagrams rs')[k]? = some d →
      (0 ∈ d.bytes ∨ d.bytes.length < 512 ∧
        leftover buf ((datagrams rs).take k) d.bytes.length = some 0 ∧
        leftover buf' ((datagrams rs').take k) d.bytes.length = some 0) →
      (run buf rs)[k]? = (run buf' rs')[k]? := by
  refine ⟨run_getElem?_iff hk hlen, ?_⟩
  intro buf' rs' hk' hzero
  have h : (run buf rs)[k]? = some (some (line d.peer (d.bytes.takeWhile (· ≠ 0)))) := by
    rw [run_getElem?_iff hk hlen]
    exact hzero.imp_right fun h => ⟨h.1, h.2.1⟩
  have h' : (run buf' rs')[k]? = some (some (line d.peer (d.bytes.takeWhile (· ≠ 0)))) := by
    rw [run_getElem?_iff hk' hlen]
    exact hzero.imp_right fun h => ⟨h.1, h.2.2⟩
  rw [h, h']

/-- A buffer of zeros. -/
def zeros : Buf := ⟨List.replicate 512 0, List.length_replicate⟩

/-- `Hello` and then `Hi` with its zero. -/
def helloHi : List Recv := [.datagram ⟨[49], [72, 101, 108, 108, 111]⟩, .error,
  .datagram ⟨[49], [72, 105, 0]⟩]

theorem run_shows_helloHi :
    (run zeros helloHi)[1]? = some (some (line [49] [72, 105])) :=
  (run_shows_iff (k := 1) (d := ⟨[49], [72, 105, 0]⟩) rfl (by decide)).1.2 (Or.inl (by decide))

/-- After `Hello`, the two bytes `Hi` are printed as `Hillo`. -/
theorem not_run_shows :
    ¬ ∀ (buf : Buf) (rs : List Recv), (∀ d ∈ datagrams rs, d.bytes.length ≤ 512) →
      ∀ (k : ℕ) (d : Datagram), (datagrams rs)[k]? = some d →
        (run buf rs)[k]? = some (some (line d.peer (d.bytes.takeWhile (· ≠ 0)))) := by
  intro h
  have h := h zeros [.datagram ⟨[49], [72, 101, 108, 108, 111]⟩, .datagram ⟨[49], [72, 105]⟩]
    (by decide) 1 ⟨[49], [72, 105]⟩ rfl
  rw [run_getElem?_iff rfl (by decide)] at h
  revert h
  decide

end Mcast
