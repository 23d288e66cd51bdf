/-
TinyTcp.Net.IpAddr — the text of an address: `ipaddr_from_str` of
`src/net/netif.cc`, and the constructor, `to_string` and the output
operator of `src/net/ipaddr.h` and `src/net/ipaddr.cc`.

A string is the memory it lies in, character by character, with the
terminator. Reading behind that memory, and writing outside the four bytes
of `a_addr`, is the fault `outOfBounds`. The two parsers go round the same
loop; they differ in what they do with a null pointer and with a character
that is neither a digit nor a dot.

`parseLoop` goes character by character, the specification field by
field: `parseLoop_fields` says that the loop stores the fields between the
dots, one after the other, and `storeFields_ok` and `storeFields_fault`
what comes of that. `parses_iff` is the exact condition under which
`ipaddr_from_str` accepts dotted quads and nothing else.

Left out: the `type` of an address, which has one value.
-/
import TinyTcp.Lib.Decimal
import TinyTcp.Net.LinkLayer

namespace TinyTcp.Net

open TinyTcp.Lib TinyTcp.Pkt

/-! ## The source -/

/-- The code of `.` -/
def dot : UInt8 := 46

/-- `*p = value`, for `p` at `a_addr[p]`. -/
def IpAddr.store (addr : IpAddr) (p : Nat) (value : UInt8) : Except Fault IpAddr :=
  if p < ipv4AddrSize then .ok ⟨addr.val.set p value, by rw [List.length_set, addr.property]⟩
  else .error .outOfBounds

/-- `q_addr = 0` -/
def IpAddr.zero : IpAddr := ⟨[0, 0, 0, 0], rfl⟩

/-- The loop of both parsers, from a state of `a_addr`, `p` and `sub_addr`: whether it
got to the end of the string, and the address. -/
def parseLoop (addr : IpAddr) (p : Nat) (subAddr : UInt8) : List UInt8 → Except Fault (Bool × IpAddr)
  | [] => .error .outOfBounds
  | c :: str =>
      if c = 0 then do
        let addr ← addr.store p subAddr
        .ok (true, addr)
      else if isDigit c then parseLoop addr p (subAddr * 10 + (c - 48)) str
      else if c = dot then do
        let addr ← addr.store p subAddr
        parseLoop addr (p + 1) 0 str
      else .ok (false, addr)

def ipaddrFromStr (dest : IpAddr) (str : Option (List UInt8)) : Except Fault (NetErr × IpAddr) :=
  match str with
  | none => .ok (.param, dest)
  | some str => do
      let (ended, dest) ← parseLoop IpAddr.zero 0 0 str
      if ended then .ok (.ok, dest) else .ok (.param, dest)

/-- The constructor from a string, over the bytes `raw` that are there before it. -/
def IpAddr.ofStr (raw : IpAddr) (str : Option (List UInt8)) : Except Fault IpAddr :=
  match str with
  | none => .ok raw
  | some str => do
      let (_, addr) ← parseLoop IpAddr.zero 0 0 str
      .ok addr

/-- `std::to_string(a_addr[i])` -/
def IpAddr.octetText (addr : IpAddr) (i : Nat) : List UInt8 := decimal (addr.val.getD i 0).toNat

def IpAddr.toText (addr : IpAddr) : List UInt8 :=
  addr.octetText 0 ++ [dot] ++ addr.octetText 1 ++ [dot] ++ addr.octetText 2 ++ [dot] ++
    addr.octetText 3

/-- `os << addr`, for a stream that has printed `os`. -/
def IpAddr.print (os : List UInt8) (addr : IpAddr) : List UInt8 :=
  os ++ addr.octetText 0 ++ [dot] ++ addr.octetText 1 ++ [dot] ++ addr.octetText 2 ++ [dot] ++
    addr.octetText 3

/-! ## Strings and addresses -/

/-- The characters of a NUL-terminated string. -/
structure CStr where
  chars : List UInt8
  noNul : 0 ∉ chars

/-- The memory it lies in. -/
def CStr.mem (s : CStr) : List UInt8 := s.chars ++ [0]

/-- The bytes `bs`, and zeros behind them. -/
def IpAddr.ofBytes (bs : List UInt8) : IpAddr :=
  ⟨(bs ++ [0, 0, 0, 0]).take ipv4AddrSize, by simp [ipv4AddrSize]⟩

theorem IpAddr.ofBytes_nil : IpAddr.ofBytes [] = IpAddr.zero := rfl

/-- Four bytes are an address. -/
theorem IpAddr.ofBytes_val {bs : List UInt8} (h : bs.length = ipv4AddrSize) :
    (IpAddr.ofBytes bs).val = bs := by
  exact List.take_left' h

theorem IpAddr.store_ofBytes {bs : List UInt8} (h : bs.length < ipv4AddrSize) (v : UInt8) :
    (IpAddr.ofBytes bs).store bs.length v = .ok (IpAddr.ofBytes (bs ++ [v])) := by
  have hset : ((bs ++ [0, 0, 0, 0]).take ipv4AddrSize).set bs.length v =
      (bs ++ [v] ++ [0, 0, 0, 0]).take ipv4AddrSize := by
    rcases bs with _ | ⟨a, _ | ⟨b, _ | ⟨c, _ | ⟨d, bs⟩⟩⟩⟩
    · rfl
    · rfl
    · rfl
    · rfl
    · simp only [List.length_cons, ipv4AddrSize] at h
      omega
  rw [IpAddr.store, if_pos h]
  exact congrArg Except.ok (Subtype.ext hset)

theorem IpAddr.store_fault (addr : IpAddr) {p : Nat} (h : ipv4AddrSize ≤ p) (v : UInt8) :
    addr.store p v = .error .outOfBounds := by
  rw [IpAddr.store, if_neg (Nat.not_lt.mpr h)]

/-! ## Fields -/

/-- What stands between the dots. -/
def fields (s : List UInt8) : List (List UInt8) := s.splitOn dot

/-- A character of a number or between two. -/
def isPlain (c : UInt8) : Bool := isDigit c || c == dot

theorem fields_ne_nil (s : List UInt8) : fields s ≠ [] := List.splitOn_ne_nil dot s

theorem fields_dot (s : List UInt8) : fields (dot :: s) = [] :: fields s := by
  rw [fields, List.splitOn_cons_eq_if_modifyHead, if_pos (beq_self_eq_true dot), fields]

theorem fields_digit {c : UInt8} (hc : c ≠ dot) (s : List UInt8) :
    fields (c :: s) = (fields s).modifyHead (List.cons c) := by
  rw [fields, List.splitOn_cons_eq_if_modifyHead, if_neg (by simpa using hc), fields]

/-- In a plain text there are digits only between the dots. -/
theorem fields_digits {s : List UInt8} (hs : ∀ c ∈ s, isPlain c = true) :
    ∀ f ∈ fields s, ∀ c ∈ f, isDigit c = true := by
  induction s with
  | nil => simp [fields]
  | cons c s ih =>
    have hrest := ih fun d hd => hs d (List.mem_cons_of_mem c hd)
    by_cases hdot : c = dot
    · rw [hdot, fields_dot]
      simpa using hrest
    · have hc : isDigit c = true := by simpa [isPlain, hdot] using hs c List.mem_cons_self
      rw [fields_digit hdot]
      cases hfields : fields s with
      | nil => exact absurd hfields (fields_ne_nil s)
      | cons f fs =>
        rw [hfields] at hrest
        simp only [List.modifyHead_cons, List.mem_cons, forall_eq_or_imp] at hrest ⊢
        exact ⟨⟨hc, hrest.1⟩, hrest.2⟩

/-- The loop, field by field: each but the last is stored, which stays in `sub_addr`. -/
def storeFields (addr : IpAddr) (p : Nat) (subAddr : UInt8) :
    List (List UInt8) → Except Fault (IpAddr × Nat × UInt8)
  | [] => .ok (addr, p, subAddr)
  | [f] => .ok (addr, p, accumulate subAddr f)
  | f :: f' :: fs => do
      let addr ← addr.store p (accumulate subAddr f)
      storeFields addr (p + 1) 0 (f' :: fs)

/-- A first character is taken into the first field. -/
theorem storeFields_cons (addr : IpAddr) (p : Nat) (v c : UInt8) {fs : List (List UInt8)}
    (hne : fs ≠ []) :
    storeFields addr p v (fs.modifyHead (List.cons c)) = storeFields addr p (v * 10 + (c - 48)) fs := by
  cases fs with
  | nil => exact absurd rfl hne
  | cons f fs =>
    cases fs with
    | nil => rw [List.modifyHead_cons, storeFields, storeFields, accumulate_cons]
    | cons f' fs => rw [List.modifyHead_cons, storeFields, storeFields, accumulate_cons]

/-- A field with one behind it is stored. -/
theorem storeFields_step (addr : IpAddr) (p : Nat) (v : UInt8) (f : List UInt8)
    {fs : List (List UInt8)} (hne : fs ≠ []) :
    storeFields addr p v (f :: fs) = (do
      let addr ← addr.store p (accumulate v f)
      storeFields addr (p + 1) 0 fs) := by
  cases fs with
  | nil => exact absurd rfl hne
  | cons f' fs => rfl

/-- The loop stores the fields of the plain characters in front. -/
theorem parseLoop_fields (s rest : List UInt8) (hs : ∀ c ∈ s, isPlain c = true) (addr : IpAddr)
    (p : Nat) (v : UInt8) :
    parseLoop addr p v (s ++ rest) = (do
      let (addr, p, v) ← storeFields addr p v (fields s)
      parseLoop addr p v rest) := by
  induction s generalizing addr p v with
  | nil => rfl
  | cons c s ih =>
    have hnul : c ≠ 0 := by
      rintro rfl
      exact absurd (hs 0 List.mem_cons_self) (by decide)
    have ih := ih fun d hd => hs d (List.mem_cons_of_mem c hd)
    by_cases hdot : c = dot
    · have hdigit : ¬ isDigit dot = true := by decide
      rw [hdot] at hnul ⊢
      rw [List.cons_append, parseLoop, if_neg hnul, if_neg hdigit, if_pos rfl, fields_dot]
      cases hfields : fields s with
      | nil => exact absurd hfields (fields_ne_nil s)
      | cons f fs =>
        rw [storeFields, accumulate_nil]
        cases addr.store p v with
        | error e => rfl
        | ok addr => rw [ok_bind, ok_bind, ih, hfields]
    · have hc : isDigit c = true := by simpa [isPlain, hdot] using hs c List.mem_cons_self
      rw [List.cons_append, parseLoop, if_neg hnul, if_pos hc, ih, fields_digit hdot,
        storeFields_cons addr p v c (fields_ne_nil s)]

/-- The number in a field, in eight bits. -/
def octet (f : List UInt8) : UInt8 := UInt8.ofNat (value f)

/-- There is room for the fields before the last one. -/
theorem storeFields_ok (fs : List (List UInt8)) (f : List UInt8)
    (hdigits : ∀ g ∈ fs ++ [f], ∀ c ∈ g, isDigit c = true) (done : List UInt8)
    (hroom : done.length + fs.length ≤ ipv4AddrSize) :
    storeFields (IpAddr.ofBytes done) done.length 0 (fs ++ [f]) =
      .ok (IpAddr.ofBytes (done ++ fs.map octet), done.length + fs.length, octet f) := by
  induction fs generalizing done with
  | nil =>
    rw [List.nil_append, storeFields, accumulate_eq (hdigits f (by simp)), List.map_nil,
      List.append_nil, List.length_nil, Nat.add_zero, octet]
  | cons g fs ih =>
    rw [List.length_cons] at hroom
    have hnext := ih (fun g' hg' => hdigits g' (List.mem_cons_of_mem g hg')) (done ++ [octet g])
      (by rw [List.length_append, List.length_singleton]; omega)
    have hg : accumulate 0 g = octet g := accumulate_eq (hdigits g (by simp))
    rw [List.length_append, List.length_singleton, List.append_assoc] at hnext
    rw [List.cons_append, storeFields_step _ _ _ _ (by simp), hg,
      IpAddr.store_ofBytes (by omega), ok_bind, hnext, List.map_cons, List.length_cons,
      List.singleton_append, Nat.add_assoc, Nat.add_comm 1]

/-- There is not. -/
theorem storeFields_fault (fs : List (List UInt8)) (f : List UInt8) (addr : IpAddr) (p : Nat)
    (v : UInt8) (hp : p ≤ ipv4AddrSize) (hroom : ipv4AddrSize < p + fs.length) :
    storeFields addr p v (fs ++ [f]) = .error .outOfBounds := by
  induction fs generalizing addr p v with
  | nil =>
    rw [List.length_nil] at hroom
    omega
  | cons g fs ih =>
    rw [List.cons_append, storeFields_step _ _ _ _ (by simp)]
    by_cases hin : p < ipv4AddrSize
    · rw [IpAddr.store, if_pos hin, ok_bind]
      rw [List.length_cons] at hroom
      exact ih _ (p + 1) 0 hin (by omega)
    · rw [IpAddr.store_fault addr (Nat.le_of_not_lt hin), error_bind]

/-! ## The loop on a whole string -/

/-- The fields of a text, the last one apart. -/
theorem exists_last_field (s : List UInt8) : ∃ fs f, fields s = fs ++ [f] :=
  ⟨_, _, (List.dropLast_append_getLast (fields_ne_nil s)).symm⟩

/-- A string of digits and dots is read to its end. Its fields, with the last one,
need a byte each. -/
theorem parseLoop_whole {s : List UInt8} (hs : ∀ c ∈ s, isPlain c = true) :
    parseLoop IpAddr.zero 0 0 (s ++ [0]) =
      if (fields s).length ≤ ipv4AddrSize then .ok (true, IpAddr.ofBytes ((fields s).map octet))
      else .error .outOfBounds := by
  obtain ⟨fs, f, hfields⟩ := exists_last_field s
  have hdigits := fields_digits hs
  rw [parseLoop_fields s [0] hs, ← IpAddr.ofBytes_nil]
  rw [hfields] at hdigits ⊢
  rw [List.length_append, List.length_singleton]
  by_cases hfault : ipv4AddrSize < fs.length
  · rw [storeFields_fault fs f _ 0 0 (Nat.zero_le _) (by omega), error_bind, if_neg (by omega)]
  · have hstore := storeFields_ok fs f hdigits [] (by simpa using hfault)
    rw [List.length_nil, Nat.zero_add, List.nil_append] at hstore
    simp only [hstore, ok_bind]
    rw [parseLoop, if_pos rfl]
    by_cases hroom : fs.length < ipv4AddrSize
    · have hlen : (fs.map octet).length < ipv4AddrSize := by rwa [List.length_map]
      have hlast := IpAddr.store_ofBytes hlen (octet f)
      rw [List.length_map] at hlast
      rw [hlast, ok_bind, if_pos (show fs.length + 1 ≤ ipv4AddrSize from hroom), List.map_append,
        List.map_singleton]
    · rw [if_neg (by omega), IpAddr.store_fault _ (Nat.le_of_not_lt hroom), error_bind]

/-- A string with another character is read up to it. The fields before the last one
need a byte each. -/
theorem parseLoop_cut {pre post : List UInt8} {c : UInt8} (hpre : ∀ c ∈ pre, isPlain c = true)
    (hc : isPlain c = false) (hnul : c ≠ 0) :
    parseLoop IpAddr.zero 0 0 (pre ++ c :: post) =
      if (fields pre).length ≤ ipv4AddrSize + 1 then
        .ok (false, IpAddr.ofBytes ((fields pre).dropLast.map octet))
      else .error .outOfBounds := by
  obtain ⟨fs, f, hfields⟩ := exists_last_field pre
  have hdigits := fields_digits hpre
  obtain ⟨hdigit, hdot⟩ : isDigit c = false ∧ c ≠ dot := by simpa [isPlain] using hc
  rw [parseLoop_fields pre (c :: post) hpre, ← IpAddr.ofBytes_nil]
  rw [hfields] at hdigits ⊢
  rw [List.length_append, List.length_singleton, List.dropLast_concat]
  by_cases hroom : fs.length ≤ ipv4AddrSize
  · have hstore := storeFields_ok fs f hdigits [] (by simpa using hroom)
    rw [List.length_nil, List.nil_append] at hstore
    simp only [hstore, ok_bind]
    rw [parseLoop, if_neg hnul, hdigit, if_neg Bool.false_ne_true, if_neg hdot,
      if_pos (by omega)]
  · rw [storeFields_fault fs f _ 0 0 (Nat.zero_le _) (by omega), error_bind, if_neg (by omega)]

/-! ## The parsers on a whole string -/

/-- The digits and dots at the front of a text. -/
def plainPart (s : List UInt8) : List UInt8 := s.takeWhile isPlain

/-- A text with another character is cut at the first one. -/
theorem exists_cut {s : List UInt8} (h : ∃ c ∈ s, isPlain c = false) :
    ∃ c post, s = plainPart s ++ c :: post ∧ isPlain c = false := by
  induction s with
  | nil =>
    obtain ⟨c, hc, -⟩ := h
    cases hc
  | cons c s ih =>
    by_cases hc : isPlain c = true
    · obtain ⟨d, hd, hplain⟩ := h
      rcases List.mem_cons.mp hd with rfl | hd
      · rw [hc] at hplain
        cases hplain
      · obtain ⟨e, post, hs, he⟩ := ih ⟨d, hd, hplain⟩
        refine ⟨e, post, ?_, he⟩
        rw [plainPart, List.takeWhile_cons_of_pos hc, List.cons_append]
        exact congrArg (List.cons c) hs
    · refine ⟨c, s, ?_, Bool.eq_false_iff.mpr hc⟩
      rw [plainPart, List.takeWhile_cons_of_neg hc, List.nil_append]

theorem plainPart_plain (s : List UInt8) : ∀ c ∈ plainPart s, isPlain c = true :=
  List.all_eq_true.mp List.all_takeWhile

/-- On a string of digits and dots the parser reports success. -/
theorem ipaddrFromStr_whole (dest : IpAddr) {s : CStr} (hs : ∀ c ∈ s.chars, isPlain c = true) :
    ipaddrFromStr dest (some s.mem) =
      if (fields s.chars).length ≤ ipv4AddrSize then
        .ok (.ok, IpAddr.ofBytes ((fields s.chars).map octet))
      else .error .outOfBounds := by
  simp only [ipaddrFromStr, CStr.mem, parseLoop_whole hs]
  split
  · rfl
  · rfl

/-- On any other string it reports an error. -/
theorem ipaddrFromStr_cut (dest : IpAddr) {s : CStr} (hs : ∃ c ∈ s.chars, isPlain c = false) :
    ipaddrFromStr dest (some s.mem) =
      if (fields (plainPart s.chars)).length ≤ ipv4AddrSize + 1 then
        .ok (.param, IpAddr.ofBytes ((fields (plainPart s.chars)).dropLast.map octet))
      else .error .outOfBounds := by
  obtain ⟨c, post, hcut, hc⟩ := exists_cut hs
  have hnul : c ≠ 0 := by
    rintro rfl
    exact s.noNul (by rw [hcut]; simp)
  have hmem : s.mem = plainPart s.chars ++ c :: (post ++ [0]) := by
    rw [CStr.mem]
    nth_rewrite 1 [hcut]
    rw [List.append_assoc, List.cons_append]
  simp only [ipaddrFromStr, hmem, parseLoop_cut (plainPart_plain s.chars) hc hnul]
  split
  · rfl
  · rfl

/-! ## Dotted quads -/

/-- A non-empty decimal number that is at most 255. -/
def IsOctet (f : List UInt8) : Prop := f ≠ [] ∧ (∀ c ∈ f, isDigit c = true) ∧ value f ≤ 255

/-- Four of them, with a dot between each two. -/
def IsDottedQuad (s : List UInt8) : Prop := (fields s).length = 4 ∧ ∀ f ∈ fields s, IsOctet f

instance (f : List UInt8) : Decidable (IsOctet f) :=
  decidable_of_iff (f.isEmpty = false ∧ f.all isDigit = true ∧ value f ≤ 255) (by simp [IsOctet])

instance (s : List UInt8) : Decidable (IsDottedQuad s) := by
  unfold IsDottedQuad
  infer_instance

/-- What a caller may expect: the four numbers of a dotted quad; for any other string
an error, and `dest` as it was; and no access outside of `a_addr`. -/
def ParsesQuad (dest : IpAddr) (s : CStr) : Prop :=
  ∃ e dest', ipaddrFromStr dest (some s.mem) = .ok (e, dest') ∧
    if IsDottedQuad s.chars then e = .ok ∧ dest'.val.map UInt8.toNat = (fields s.chars).map value
    else e = .param ∧ dest' = dest

/-- The string is a dotted quad, or another character follows at most four dots, and
`dest` holds the numbers before these dots already. -/
def QuadOrHeld (dest : IpAddr) (s : CStr) : Prop :=
  IsDottedQuad s.chars ∨
    ((∃ c ∈ s.chars, isPlain c = false) ∧ (fields (plainPart s.chars)).length ≤ ipv4AddrSize + 1 ∧
      dest = IpAddr.ofBytes ((fields (plainPart s.chars)).dropLast.map octet))

instance (dest : IpAddr) (s : CStr) : Decidable (QuadOrHeld dest s) := by
  unfold QuadOrHeld
  infer_instance

/-- A text with digits only between its dots has no other characters. -/
theorem plain_of_fields {s : List UInt8} (h : ∀ f ∈ fields s, ∀ c ∈ f, isDigit c = true) :
    ∀ c ∈ s, isPlain c = true := by
  induction s with
  | nil => simp
  | cons c s ih =>
    by_cases hdot : c = dot
    · rw [hdot, fields_dot] at h
      have hs := ih fun f hf => h f (List.mem_cons_of_mem _ hf)
      intro d hd
      rcases List.mem_cons.mp hd with rfl | hd
      · simp [isPlain, hdot]
      · exact hs d hd
    · rw [fields_digit hdot] at h
      cases hfields : fields s with
      | nil => exact absurd hfields (fields_ne_nil s)
      | cons f fs =>
        rw [hfields] at h ih
        simp only [List.modifyHead_cons, List.mem_cons, forall_eq_or_imp] at h ih
        intro d hd
        rcases List.mem_cons.mp hd with rfl | hd
        · simp [isPlain, h.1.1]
        · exact ih ⟨h.1.2, h.2⟩ d hd

theorem IsDottedQuad.plain {s : List UInt8} (h : IsDottedQuad s) : ∀ c ∈ s, isPlain c = true :=
  plain_of_fields fun f hf => (h.2 f hf).2.1

/-- The bytes of a dotted quad are its numbers. -/
theorem IsDottedQuad.octets {s : List UInt8} (h : IsDottedQuad s) :
    (IpAddr.ofBytes ((fields s).map octet)).val.map UInt8.toNat = (fields s).map value := by
  have hlen : ((fields s).map octet).length = ipv4AddrSize := by
    rw [List.length_map]
    exact h.1
  rw [IpAddr.ofBytes_val hlen, List.map_map]
  refine List.map_congr_left fun f hf => ?_
  have hle := (h.2 f hf).2.2
  exact Nat.mod_eq_of_lt (by omega)

/-- **ipaddr_from_str accepts dotted quads and nothing else**, and leaves `dest` alone
otherwise, exactly under the condition. -/
theorem parses_iff (dest : IpAddr) (s : CStr) : ParsesQuad dest s ↔ QuadOrHeld dest s := by
  by_cases hplain : ∀ c ∈ s.chars, isPlain c = true
  · have hcut : ¬ ∃ c ∈ s.chars, isPlain c = false := by
      rintro ⟨c, hc, hfalse⟩
      rw [hplain c hc] at hfalse
      cases hfalse
    rw [ParsesQuad, QuadOrHeld, ipaddrFromStr_whole dest hplain]
    by_cases hquad : IsDottedQuad s.chars
    · refine iff_of_true ⟨.ok, _, if_pos (Nat.le_of_eq hquad.1), ?_⟩ (Or.inl hquad)
      rw [if_pos hquad]
      exact ⟨rfl, hquad.octets⟩
    · refine iff_of_false ?_ ?_
      · rintro ⟨e, dest', heq, hright⟩
        rw [if_neg hquad] at hright
        rw [hright.1] at heq
        split at heq
        · cases heq
        · cases heq
      · rintro (h | h)
        · exact hquad h
        · exact hcut h.1
  · have hcut : ∃ c ∈ s.chars, isPlain c = false := by simpa using hplain
    have hquad : ¬ IsDottedQuad s.chars := fun h => hplain h.plain
    rw [ParsesQuad, QuadOrHeld, ipaddrFromStr_cut dest hcut]
    constructor
    · rintro ⟨e, dest', heq, hright⟩
      rw [if_neg hquad] at hright
      split at heq
      · next hroom =>
        simp only [Except.ok.injEq, Prod.mk.injEq] at heq
        exact Or.inr ⟨hcut, hroom, by rw [heq.2, hright.2]⟩
      · cases heq
    · rintro (h | ⟨-, hroom, hheld⟩)
      · exact absurd h hquad
      · refine ⟨.param, dest, ?_, ?_⟩
        · rw [if_pos hroom, ← hheld]
        · rw [if_neg hquad]
          exact ⟨rfl, rfl⟩

theorem not_parsesQuad {dest dest' : IpAddr} {s : CStr} {e : NetErr}
    (hcall : ipaddrFromStr dest (some s.mem) = .ok (e, dest')) (hquad : ¬ IsDottedQuad s.chars)
    (hwrong : e ≠ .param ∨ dest' ≠ dest) : ¬ ParsesQuad dest s := by
  rintro ⟨e', dest'', heq, hright⟩
  rw [if_neg hquad] at hright
  obtain ⟨rfl, rfl⟩ := Prod.mk.inj (Except.ok.inj (hcall.symm.trans heq))
  rcases hwrong with hwrong | hwrong
  · exact hwrong hright.1
  · exact hwrong hright.2

theorem not_parsesQuad_fault {dest : IpAddr} {s : CStr} {f : Fault}
    (hcall : ipaddrFromStr dest (some s.mem) = .error f) : ¬ ParsesQuad dest s := by
  rintro ⟨e, dest', heq, -⟩
  rw [hcall] at heq
  cases heq

/-- `1.2`, `256.0.0.1`, `1.2.3.4.5` and `1.x`. -/
theorem not_parses :
    ¬ ParsesQuad IpAddr.zero ⟨[49, 46, 50], by decide⟩ ∧
      ¬ ParsesQuad IpAddr.zero ⟨[50, 53, 54, 46, 48, 46, 48, 46, 49], by decide⟩ ∧
      ¬ ParsesQuad IpAddr.zero ⟨[49, 46, 50, 46, 51, 46, 52, 46, 53], by decide⟩ ∧
      ¬ ParsesQuad IpAddr.zero ⟨[49, 46, 120], by decide⟩ := by
  refine ⟨?_, ?_, ?_, ?_⟩
  · have hcall : ipaddrFromStr IpAddr.zero (some [49, 46, 50, 0]) =
        .ok (.ok, ⟨[1, 2, 0, 0], rfl⟩) := by decide
    exact not_parsesQuad hcall (fun h => absurd h.1 (by decide)) (Or.inl (by decide))
  · have hcall : ipaddrFromStr IpAddr.zero (some [50, 53, 54, 46, 48, 46, 48, 46, 49, 0]) =
        .ok (.ok, ⟨[0, 0, 0, 1], rfl⟩) := by decide
    have hoctet (h : IsOctet [50, 53, 54]) : False := absurd h.2.2 (by decide)
    exact not_parsesQuad hcall (fun h => hoctet (h.2 [50, 53, 54] (by decide)))
      (Or.inl (by decide))
  · have hcall : ipaddrFromStr IpAddr.zero (some [49, 46, 50, 46, 51, 46, 52, 46, 53, 0]) =
        .error .outOfBounds := by decide
    exact not_parsesQuad_fault hcall
  · have hcall : ipaddrFromStr IpAddr.zero (some [49, 46, 120, 0]) =
        .ok (.param, ⟨[1, 0, 0, 0], rfl⟩) := by decide
    exact not_parsesQuad hcall (fun h => absurd h.1 (by decide)) (Or.inr (by decide))

/-! ## Printing -/

namespace IpAddr

theorem print_eq (os : List UInt8) (addr : IpAddr) : addr.print os = os ++ addr.toText := by
  simp only [print, toText, List.append_assoc]

/-- The text is the four numbers with dots between them. -/
theorem toText_eq (addr : IpAddr) :
    addr.toText = [dot].intercalate (addr.val.map fun v => decimal v.toNat) := by
  obtain ⟨bytes, hlen⟩ := addr
  rcases bytes with _ | ⟨a, _ | ⟨b, _ | ⟨c, _ | ⟨d, _ | ⟨e, bytes⟩⟩⟩⟩⟩
  · cases hlen
  · cases hlen
  · cases hlen
  · cases hlen
  · simp [toText, octetText, List.intercalate_cons_cons]
  · simp [ipv4AddrSize] at hlen

/-- No dot in a number. -/
theorem dot_notMem_decimal (n : Nat) : dot ∉ decimal n := by
  intro h
  exact absurd (decimal_digits n dot h) (by decide)

/-- Its fields are these numbers. -/
theorem fields_toText (addr : IpAddr) :
    fields addr.toText = addr.val.map fun v => decimal v.toNat := by
  rw [fields, toText_eq, List.splitOn_intercalate]
  · intro f hf
    obtain ⟨v, -, rfl⟩ := List.mem_map.mp hf
    exact dot_notMem_decimal v.toNat
  · intro h
    have hlen := congrArg List.length h
    rw [List.length_map, addr.property] at hlen
    cases hlen

theorem toText_plain (addr : IpAddr) : ∀ c ∈ addr.toText, isPlain c = true := by
  refine plain_of_fields fun f hf => ?_
  rw [fields_toText] at hf
  obtain ⟨v, -, rfl⟩ := List.mem_map.mp hf
  exact decimal_digits v.toNat

/-- `to_string().c_str()` -/
def text (addr : IpAddr) : CStr where
  chars := addr.toText
  noNul h := absurd (addr.toText_plain 0 h) (by decide)

/-- What `<<` prints, as a string. -/
def printed (addr : IpAddr) : CStr where
  chars := addr.print []
  noNul h := absurd (addr.toText_plain 0 (by rwa [print_eq] at h)) (by decide)

/-- Read in eight bits, the numbers are the bytes of the address. -/
theorem octets_toText (addr : IpAddr) : IpAddr.ofBytes ((fields addr.toText).map octet) = addr := by
  have hbytes : (fields addr.toText).map octet = addr.val := by
    rw [fields_toText, List.map_map]
    have hid : (octet ∘ fun v : UInt8 => decimal v.toNat) = id := by
      funext v
      rw [Function.comp_apply, octet, value_decimal, UInt8.ofNat_toNat, id]
    rw [hid, List.map_id]
  rw [hbytes]
  exact Subtype.ext (ofBytes_val addr.property)

end IpAddr

theorem ipaddrFromStr_text (dest addr : IpAddr) {s : CStr} (hs : s.chars = addr.toText) :
    ipaddrFromStr dest (some s.mem) = .ok (.ok, addr) := by
  have hplain : ∀ c ∈ s.chars, isPlain c = true := by
    rw [hs]
    exact addr.toText_plain
  have hlen : (fields addr.toText).length = ipv4AddrSize := by
    rw [IpAddr.fields_toText, List.length_map, addr.property]
  rw [ipaddrFromStr_whole dest hplain, hs, if_pos (Nat.le_of_eq hlen), IpAddr.octets_toText]

/-- Where the parser reports success, the constructor builds the same address. -/
theorem ofStr_of_ok {dest dest' : IpAddr} (raw : IpAddr) {str : Option (List UInt8)}
    (h : ipaddrFromStr dest str = .ok (.ok, dest')) : IpAddr.ofStr raw str = .ok dest' := by
  cases str with
  | none => cases h
  | some str =>
    rw [ipaddrFromStr] at h
    rw [IpAddr.ofStr]
    cases hloop : parseLoop IpAddr.zero 0 0 str with
    | error e =>
      rw [hloop] at h
      cases h
    | ok r =>
      obtain ⟨ended, addr⟩ := r
      rw [hloop] at h
      cases ended with
      | true =>
        obtain rfl : addr = dest' := by simpa [ok_bind] using h
        rfl
      | false => cases h

/-- **Round trip**: both parsers read what `to_string` and `<<` print as the address, and
where `ipaddr_from_str` reports success the constructor agrees with it. -/
theorem text_roundTrip (addr dest raw : IpAddr) :
    ipaddrFromStr dest (some addr.text.mem) = .ok (.ok, addr) ∧
      ipaddrFromStr dest (some addr.printed.mem) = .ok (.ok, addr) ∧
      IpAddr.ofStr raw (some addr.text.mem) = .ok addr ∧
      IpAddr.ofStr raw (some addr.printed.mem) = .ok addr ∧
      ∀ (s : CStr) (dest' : IpAddr), ipaddrFromStr dest (some s.mem) = .ok (.ok, dest') →
        IpAddr.ofStr raw (some s.mem) = .ok dest' := by
  have htext := ipaddrFromStr_text dest addr (s := addr.text) rfl
  have hprinted := ipaddrFromStr_text dest addr (s := addr.printed) (addr.print_eq [])
  exact ⟨htext, hprinted, ofStr_of_ok raw htext, ofStr_of_ok raw hprinted,
    fun _ _ h => ofStr_of_ok raw h⟩

end TinyTcp.Net
