/-
Addresses (`addr.py`).

* `int` — `int()` of a string: white space around it, a sign, decimal digits of any
  script, underscores between digits;
* `formatAddr`, `splitAddr` — `host:port`, with brackets around an IPv6 host; `selfAddr`;
* `int_toString` — `int` reads back every number that is short enough to be printed;
* `splitAddr_formatAddr` — a host without brackets and a port are found again;
* **`split_undoes_format`** — so `formatAddr` is injective on these, and `selfAddr` keeps the
  host, wildcards aside, and takes the port that it is given.
-/
import Mathlib.Algebra.Ring.Nat
import Mathlib.Data.Int.Order.Basic
import Mathlib.Data.List.TakeWhile

namespace Addr

/-! ### Numerals -/

/-- The white space that `int` ignores around a numeral. -/
def isSpace (c : Char) : Bool :=
  (0x9 ≤ c.toNat && c.toNat ≤ 0xd) || (0x2000 ≤ c.toNat && c.toNat ≤ 0x200a) ||
    [0x20, 0x85, 0xa0, 0x1680, 0x2028, 0x2029, 0x202f, 0x205f, 0x3000].contains c.toNat

/-- The decimal digits of Unicode come in rows from zero to nine; these are the zeros. -/
def zeros : List ℕ :=
  [0x30, 0x660, 0x6f0, 0x7c0, 0x966, 0x9e6, 0xa66, 0xae6, 0xb66, 0xbe6, 0xc66, 0xce6, 0xd66, 0xde6,
    0xe50, 0xed0, 0xf20, 0x1040, 0x1090, 0x17e0, 0x1810, 0x1946, 0x19d0, 0x1a80, 0x1a90, 0x1b50,
    0x1bb0, 0x1c40, 0x1c50, 0xa620, 0xa8d0, 0xa900, 0xa9d0, 0xa9f0, 0xaa50, 0xabf0, 0xff10, 0x104a0,
    0x10d30, 0x11066, 0x110f0, 0x11136, 0x111d0, 0x112f0, 0x11450, 0x114d0, 0x11650, 0x116c0,
    0x11730, 0x118e0, 0x11950, 0x11c50, 0x11d50, 0x11da0, 0x16a60, 0x16ac0, 0x16b50, 0x1d7ce,
    0x1d7d8, 0x1d7e2, 0x1d7ec, 0x1d7f6, 0x1e140, 0x1e2f0, 0x1e950, 0x1fbf0]

/-- The value of a decimal digit. -/
def decimal (c : Char) : Option ℕ :=
  (zeros.find? fun z => z ≤ c.toNat && c.toNat < z + 10).map fun z => c.toNat - z

/-- The digits of a numeral, with single underscores between them. -/
def digits : List Char → Option (List ℕ)
  | [] => none
  | c :: cs => do
    let d ← decimal c
    match cs with
    | [] => some [d]
    | '_' :: rest => (digits rest).map (d :: ·)
    | c' :: rest => (digits (c' :: rest)).map (d :: ·)

/-- `sys.int_info.default_max_str_digits` -/
def maxStrDigits : ℕ := 4300

def natural (cs : List Char) : Option ℕ := do
  let ds ← digits cs
  if ds.length ≤ maxStrDigits then some (ds.foldl (fun n d => 10 * n + d) 0) else none

/-- `int(s)`; `none` when it raises. -/
def int (s : List Char) : Option ℤ :=
  match ((s.dropWhile isSpace).reverse.dropWhile isSpace).reverse with
  | '+' :: cs => (natural cs).map Nat.cast
  | '-' :: cs => (natural cs).map fun n => -(n : ℤ)
  | cs => (natural cs).map Nat.cast

/-! ### Hosts and ports -/

/-- `format_addr(host, port)`, for a port that `str` prints. -/
def formatAddr (host : String) (port : ℤ) : String :=
  if ':' ∈ host.toList then "[" ++ host ++ "]:" ++ toString port
  else host ++ ":" ++ toString port

/-- `s.partition(sep)`, without the separator. -/
def partition (sep : List Char) : List Char → List Char × List Char
  | [] => ([], [])
  | c :: cs =>
    if sep.isPrefixOf (c :: cs) then ([], (c :: cs).drop sep.length)
    else (c :: (partition sep cs).1, (partition sep cs).2)

/-- `s.rsplit(sep, 1)`, if the separator occurs. -/
def rsplit (sep : Char) : List Char → Option (List Char × List Char)
  | [] => none
  | c :: cs =>
    match rsplit sep cs with
    | some (before, after) => some (c :: before, after)
    | none => if c = sep then some ([], cs) else none

/-- `split_addr(addr)`; `none` when it raises. -/
def splitAddr (addr : String) : Option (String × ℤ) :=
  match addr.toList with
  | '[' :: cs => do
    let (host, rest) := partition [']', ':'] cs
    return (String.ofList host, ← int rest)
  | cs => do
    let (host, port) ← rsplit ':' cs
    return (String.ofList host, ← int port)

/-- The bind hosts that cannot be dialled. -/
def wildcards : List String := ["0.0.0.0", "::", ""]

/-- `self_addr(bind_addr, port)`, for a port that `str` prints; `none` when it raises. -/
def selfAddr (bindAddr : String) (port : ℤ) : Option String := do
  let (host, _) ← splitAddr bindAddr
  return formatAddr (if host ∈ wildcards then "127.0.0.1" else host) port

/-! ### Numbers that are printed -/

/-- `str` raises for a longer number. -/
def Printable (n : ℤ) : Prop := n.natAbs < 10 ^ maxStrDigits

instance (n : ℤ) : Decidable (Printable n) := inferInstanceAs (Decidable (_ < _))

/-- Every port number can be printed. -/
theorem printable_port {n : ℤ} (h : n.natAbs ≤ 65535) : Printable n :=
  calc n.natAbs < 10 ^ 5 := by omega
    _ ≤ 10 ^ maxStrDigits := Nat.pow_le_pow_right (by decide) (by decide)

theorem printable_of_le {i j : ℕ} (h : Printable j) (hij : i ≤ j) : Printable i := by
  unfold Printable at h ⊢
  rw [Int.natAbs_natCast] at h ⊢
  exact hij.trans_lt h

theorem toNat_of_isDigit {c : Char} (h : c.isDigit = true) : 48 ≤ c.toNat ∧ c.toNat ≤ 57 := by
  simp only [Char.isDigit, Bool.and_eq_true, decide_eq_true_eq] at h
  exact h

theorem decimal_of_isDigit {c : Char} (h : c.isDigit = true) : decimal c = some (c.toNat - 48) := by
  obtain ⟨hlo, hhi⟩ := toNat_of_isDigit h
  unfold decimal zeros
  rw [List.find?_cons_of_pos (by simp; omega)]
  rfl

theorem digits_of_isDigit {cs : List Char} (hne : cs ≠ []) (h : ∀ c ∈ cs, c.isDigit = true) :
    digits cs = some (cs.map fun c => c.toNat - 48) := by
  induction cs with
  | nil => exact absurd rfl hne
  | cons c cs ih =>
    have hc := decimal_of_isDigit (h c List.mem_cons_self)
    cases cs with
    | nil =>
      rw [digits, hc]
      rfl
    | cons c' cs =>
      have hrest := ih (List.cons_ne_nil _ _) fun x hx => h x (List.mem_cons_of_mem _ hx)
      -- the next character is no underscore
      have hdigit := h c' (by simp)
      rw [digits, hc]
      simp only [Option.bind_eq_bind, Option.bind_some]
      split
      · rename_i heq
        cases heq
      · rename_i heq
        obtain ⟨rfl, -⟩ := List.cons.inj heq
        exact absurd hdigit (by decide)
      · rename_i heq
        obtain ⟨rfl, rfl⟩ := List.cons.inj heq
        rw [hrest]
        rfl

theorem isDigit_of_mem {n : ℕ} {c : Char} (h : c ∈ Nat.toDigits 10 n) : c.isDigit = true :=
  Nat.isDigit_of_mem_toDigits (by decide) (by decide) h

theorem natural_toDigits {n : ℕ} (h : n < 10 ^ maxStrDigits) :
    natural (Nat.toDigits 10 n) = some n := by
  have hdigits : digits (Nat.toDigits 10 n) = _ :=
    digits_of_isDigit Nat.toDigits_ne_nil fun c hc => isDigit_of_mem hc
  have hlen := (Nat.length_toDigits_le_iff (b := 10) (k := maxStrDigits) (by decide)
    (by decide)).mpr h
  unfold natural
  rw [hdigits, Option.bind_eq_bind, Option.bind_some, if_pos (by rwa [List.length_map]),
    List.foldl_map]
  exact congrArg some Nat.ofDigitChars_ten_toDigits

theorem strip_eq {cs : List Char} (h : ∀ c ∈ cs, isSpace c = false) :
    ((cs.dropWhile isSpace).reverse.dropWhile isSpace).reverse = cs := by
  have hkeep : ∀ l : List Char, (∀ c ∈ l, isSpace c = false) → l.dropWhile isSpace = l :=
    fun l hl => List.dropWhile_eq_self_iff.mpr fun hlen => by simp [hl _ (List.getElem_mem hlen)]
  rw [hkeep cs h, hkeep _ fun c hc => h c (List.mem_reverse.mp hc), List.reverse_reverse]

theorem isSpace_of_isDigit {c : Char} (h : c.isDigit = true) : isSpace c = false := by
  obtain ⟨hlo, hhi⟩ := toNat_of_isDigit h
  simp [isSpace]
  omega

theorem toList_toString_ofNat (n : ℕ) : (toString (Int.ofNat n)).toList = Nat.toDigits 10 n :=
  Nat.toList_repr

theorem toList_toString_negSucc (n : ℕ) :
    (toString (Int.negSucc n)).toList = '-' :: Nat.toDigits 10 (n + 1) := by
  rw [← Nat.toList_repr]
  exact String.toList_append

/-- `int` reads what `str` prints. -/
theorem int_toString {n : ℤ} (h : Printable n) : int (toString n).toList = some n := by
  cases n with
  | ofNat m =>
    have hnat : natural (Nat.toDigits 10 m) = some m := natural_toDigits h
    unfold int
    rw [toList_toString_ofNat, strip_eq fun c hc => isSpace_of_isDigit (isDigit_of_mem hc)]
    -- a digit is no sign
    split
    · rename_i cs heq
      exact absurd (isDigit_of_mem (heq ▸ List.mem_cons_self)) (by decide)
    · rename_i cs heq
      exact absurd (isDigit_of_mem (heq ▸ List.mem_cons_self)) (by decide)
    · rw [hnat]
      rfl
  | negSucc m =>
    have hnat : natural (Nat.toDigits 10 (m + 1)) = some (m + 1) := natural_toDigits h
    unfold int
    rw [toList_toString_negSucc, strip_eq]
    · simp only [hnat]
      rfl
    · intro c hc
      rcases List.mem_cons.mp hc with rfl | hc
      · decide
      · exact isSpace_of_isDigit (isDigit_of_mem hc)

/-- No printed number has a colon in it. -/
theorem colon_not_mem_toString (n : ℤ) : ':' ∉ (toString n).toList := by
  have hdigit : ∀ m : ℕ, ':' ∉ Nat.toDigits 10 m := fun m hc =>
    absurd (isDigit_of_mem hc) (by decide)
  cases n with
  | ofNat m =>
    rw [toList_toString_ofNat]
    exact hdigit m
  | negSucc m =>
    rw [toList_toString_negSucc, List.mem_cons, not_or]
    exact ⟨by decide, hdigit _⟩

/-! ### Addresses that are taken apart -/

theorem partition_append {c d : Char} {host rest : List Char} (h : c ∉ host) :
    partition [c, d] (host ++ c :: d :: rest) = (host, rest) := by
  induction host with
  | nil => simp [partition]
  | cons x host ih =>
    rw [List.mem_cons, not_or] at h
    rw [List.cons_append, partition, if_neg, ih h.2]
    simp [h.1]

theorem rsplit_eq_none {sep : Char} {cs : List Char} (h : sep ∉ cs) : rsplit sep cs = none := by
  induction cs with
  | nil => rfl
  | cons x cs ih =>
    rw [List.mem_cons, not_or] at h
    rw [rsplit, ih h.2]
    exact if_neg (Ne.symm h.1)

theorem rsplit_append {sep : Char} {host port : List Char} (h : sep ∉ port) :
    rsplit sep (host ++ sep :: port) = some (host, port) := by
  induction host with
  | nil =>
    rw [List.nil_append, rsplit, rsplit_eq_none h]
    exact if_pos rfl
  | cons x host ih => rw [List.cons_append, rsplit, ih]

/-- A host without square brackets. -/
def Plain (host : String) : Prop := '[' ∉ host.toList ∧ ']' ∉ host.toList

instance (host : String) : Decidable (Plain host) := by
  unfold Plain
  infer_instance

theorem splitAddr_formatAddr {host : String} (hhost : Plain host) {port : ℤ}
    (hport : Printable port) : splitAddr (formatAddr host port) = some (host, port) := by
  have hint := int_toString hport
  unfold formatAddr
  split
  · -- between brackets, where the first `]:` ends the host
    have htext : ("[" ++ host ++ "]:" ++ toString port).toList =
        '[' :: (host.toList ++ ']' :: ':' :: (toString port).toList) := by
      simp [String.toList_append]
    unfold splitAddr
    simp only [htext, partition_append hhost.2, hint, Option.bind_eq_bind, Option.bind_some,
      String.ofList_toList]
    rfl
  · have htext : (host ++ ":" ++ toString port).toList =
        host.toList ++ ':' :: (toString port).toList := by
      simp [String.toList_append]
    unfold splitAddr
    rw [htext]
    split
    · -- the host has no bracket to start with
      rename_i cs heq
      cases hl : host.toList with
      | nil =>
        rw [hl] at heq
        cases heq
      | cons c rest =>
        rw [hl] at heq
        obtain ⟨rfl, -⟩ := List.cons.inj heq
        exact absurd (hl ▸ List.mem_cons_self) hhost.1
    · simp only [rsplit_append (colon_not_mem_toString port), hint, Option.bind_eq_bind,
        Option.bind_some, String.ofList_toList]
      rfl

theorem selfAddr_formatAddr {host : String} (hhost : Plain host) {port : ℤ}
    (hport : Printable port) (port' : ℤ) : selfAddr (formatAddr host port) port' =
      some (formatAddr (if host ∈ wildcards then "127.0.0.1" else host) port') := by
  rw [selfAddr, splitAddr_formatAddr hhost hport]
  rfl

/-- **`split_addr` undoes `format_addr`**, which therefore makes different addresses of different
hosts and ports; and the address that a process dials itself at has the host it is bound to, or
`127.0.0.1` for a wildcard, and the given port. -/
theorem split_undoes_format {host : String} (hhost : Plain host) {port : ℤ}
    (hport : Printable port) :
    splitAddr (formatAddr host port) = some (host, port) ∧
    (∀ host' port', Plain host' → Printable port' →
      formatAddr host' port' = formatAddr host port → host' = host ∧ port' = port) ∧
    ∀ port', Printable port' → ∃ addr, selfAddr (formatAddr host port) port' = some addr ∧
      splitAddr addr = some (if host ∈ wildcards then "127.0.0.1" else host, port') := by
  have hsplit := splitAddr_formatAddr hhost hport
  refine ⟨hsplit, fun host' port' hhost' hport' heq => ?_, fun port' hport' => ?_⟩
  · have hsplit' := splitAddr_formatAddr hhost' hport'
    rw [heq, hsplit] at hsplit'
    exact ⟨(congrArg Prod.fst (Option.some.inj hsplit')).symm,
      (congrArg Prod.snd (Option.some.inj hsplit')).symm⟩
  · refine ⟨_, selfAddr_formatAddr hhost hport port', splitAddr_formatAddr ?_ hport'⟩
    split
    · decide
    · exact hhost

/-- An IPv6 host in brackets. -/
theorem split_undoes_format_ipv6 : splitAddr (formatAddr "fe80::1" 9000) = some ("fe80::1", 9000) :=
  (split_undoes_format (by decide) (printable_port (by decide))).1

end Addr
