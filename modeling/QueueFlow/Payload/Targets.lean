-- SUMMARY: What the check of webhook targets lets through and what it refuses, for addresses and for names.
import QueueFlow.Shared.Payload

/-!
# Webhook targets

`blockedTarget` compares prefixes of the host's text. The theorems here say what that amounts to for
the addresses and names behind the texts: which private addresses pass, and which public hosts do not.
-/

namespace QueueFlow

open Address

/-! ## The ranges that a server must not be made to call -/

/-- `0/8`, `127/8`, `10/8`, `172.16/12`, `192.168/16` and `169.254/16`. -/
def privateRanges : List (Cidr 32) :=
  [⟨0x00000000#32, 8⟩, ⟨0x7F000000#32, 8⟩, ⟨0x0A000000#32, 8⟩, ⟨0xAC100000#32, 12⟩,
    ⟨0xC0A80000#32, 16⟩, ⟨0xA9FE0000#32, 16⟩]

/-- `fe80::/10` -/
def linkLocal : Cidr 128 := ⟨0xFE800000000000000000000000000000#128, 10⟩

/-- `::`, `::1`, `fe80::/10` and `fc00::/7`. -/
def privateRanges6 : List (Cidr 128) :=
  [⟨0#128, 128⟩, ⟨1#128, 128⟩, linkLocal, ⟨0xFC000000000000000000000000000000#128, 7⟩]

/-- The IPv4 address that is written into an address of `::ffff:0:0/96`. -/
def mapped (a : BitVec 128) : Option (BitVec 32) :=
  if (⟨0xFFFF00000000#128, 96⟩ : Cidr 128).Contains a then some (a.setWidth 32) else none

def IsPrivate4 (a : BitVec 32) : Prop := ∃ c ∈ privateRanges, c.Contains a

def IsPrivate6 (a : BitVec 128) : Prop :=
  (∃ c ∈ privateRanges6, c.Contains a) ∨ ∃ b ∈ mapped a, IsPrivate4 b

def Host.IsLiteral : Host → Prop
  | .ipv4 _ | .ipv6 _ => True
  | _ => False

/-- The host is an address of one of the ranges. -/
def Host.IsPrivate : Host → Prop
  | .ipv4 a => IsPrivate4 a
  | .ipv6 a => IsPrivate6 a
  | _ => False

/-! ## Texts -/

variable {env : Option Text} {a : BitVec 128} {b : BitVec 32} {c : Char} {t : Text} {p : Nat}

theorem isPrivate4_iff : IsPrivate4 b ↔ octet b 0 = 127 ∨ octet b 0 = 0 ∨ octet b 0 = 10 ∨
    octet b 0 = 192 ∧ octet b 1 = 168 ∨ octet b 0 = 172 ∧ 16 ≤ octet b 1 ∧ octet b 1 ≤ 31 ∨
      octet b 0 = 169 ∧ octet b 1 = 254 := by
  have hlt := b.isLt
  simp only [IsPrivate4, privateRanges, List.mem_cons, List.not_mem_nil, or_false, exists_eq_or_imp,
    exists_eq_left, Cidr.Contains, octet, BitVec.toNat_ofNat]
  norm_num
  omega

theorem exists_privateRanges6_iff : (∃ c ∈ privateRanges6, c.Contains a) ↔
    a = 0#128 ∨ a = 1#128 ∨ linkLocal.Contains a ∨ piece a 0 / 512 = 0x7E := by
  have hlt := a.isLt
  simp only [privateRanges6, linkLocal, List.mem_cons, List.not_mem_nil, or_false, exists_eq_or_imp,
    exists_eq_left, Cidr.Contains, piece, BitVec.toNat_ofNat, BitVec.toNat_eq]
  norm_num
  omega

theorem linkLocal_of_piece (h : piece a 0 = 0xFE80) : linkLocal.Contains a := by
  have hlt := a.isLt
  simp only [linkLocal, Cidr.Contains, piece, BitVec.toNat_ofNat] at h ⊢
  norm_num at h ⊢
  omega

/-- The text of the piece begins with `fc` or `fd`. -/
def HasUniqueLocalPrefix (p : Nat) : Prop := p / 2 = 0x7E ∨ p / 32 = 0x7E ∨ p / 512 = 0x7E

instance (p : Nat) : Decidable (HasUniqueLocalPrefix p) := inferInstanceAs (Decidable (_ ∨ _ ∨ _))

private theorem isPrefixOf_hex_iff (hp : p < 65536) : ("fc".toList.isPrefixOf (hex p ++ ':' :: t) = true ∨
    "fd".toList.isPrefixOf (hex p ++ ':' :: t) = true) ↔ HasUniqueLocalPrefix p := by
  rcases hex_cases hp with ⟨hlt, heq⟩ | ⟨hge, hlt, heq⟩ | ⟨hge, hlt, heq⟩ | ⟨hge, heq⟩ <;>
    simp [heq, HasUniqueLocalPrefix, List.isPrefixOf] <;> omega

private theorem isPrefixOf_hex_linkLocal (hp : p < 65536) :
    "fe80:".toList.isPrefixOf (hex p ++ ':' :: t) = true ↔ p = 0xFE80 := by
  rcases hex_cases hp with ⟨hlt, heq⟩ | ⟨hge, hlt, heq⟩ | ⟨hge, hlt, heq⟩ | ⟨hge, heq⟩ <;>
    simp [heq, List.isPrefixOf] <;> omega

/-! ## The text of a host -/

private theorem toLowerCase_of_forall (h : ∀ c ∈ t, c.toLower = c) : toLowerCase t = t :=
  (List.map_congr_left h).trans (List.map_id t)

private theorem stripBrackets_of_not_mem (hopen : '[' ∉ t) (hclose : ']' ∉ t) : stripBrackets t = t := by
  have hhead : t.head? ≠ some '[' := fun h => hopen (List.mem_of_mem_head? h)
  have hlast : t.getLast? ≠ some ']' := fun h => hclose (List.mem_of_getLast? h)
  simp only [stripBrackets, if_neg hhead, if_neg hlast]

private theorem stripBrackets_brackets : stripBrackets ('[' :: (t ++ [']'])) = t := by
  simp [stripBrackets]

/-- A digit is none of the characters that the tests look for. -/
private theorem digitChar_plain {d : Nat} (hd : d < 16) : d.digitChar.toLower = d.digitChar ∧
    d.digitChar ≠ 'l' ∧ d.digitChar ≠ '.' ∧ d.digitChar ≠ '[' ∧ d.digitChar ≠ ']' := by
  interval_cases d <;> decide

private theorem compressed_plain (h : c ∈ compressed a) : c.toLower = c ∧ c ≠ 'l' ∧ c ≠ '.' := by
  rcases mem_compressed h with rfl | ⟨d, hd, rfl⟩
  · decide
  · obtain ⟨hlower, hl, hdot, -⟩ := digitChar_plain hd
    exact ⟨hlower, hl, hdot⟩

/-- A text without an `l` is not the name of the host itself. -/
private theorem not_local (h : 'l' ∉ t) : (decide (t = "localhost".toList) ||
    ".localhost".toList.isSuffixOf t || ".local".toList.isSuffixOf t) = false := by
  have hsuffix {u : Text} (hu : 'l' ∈ u) : u.isSuffixOf t = false :=
    Bool.eq_false_iff.mpr fun hs => h ((List.isSuffixOf_iff_suffix.mp hs).mem hu)
  rw [hsuffix (by decide), hsuffix (by decide), Bool.or_false, Bool.or_false]
  exact decide_eq_false fun heq => h (heq ▸ by decide)

/-- The tests for IPv6 addresses, of the text that an address has. -/
private theorem refuses_compressed : (decide (compressed a = "::1".toList) ||
    decide (compressed a = "::".toList) || "fe80:".toList.isPrefixOf (compressed a) ||
      "fc".toList.isPrefixOf (compressed a) || "fd".toList.isPrefixOf (compressed a)) = true ↔
    a = 0#128 ∨ a = 1#128 ∨ piece a 0 = 0xFE80 ∨ HasUniqueLocalPrefix (piece a 0) := by
  have hzero : compressed a = "::".toList ↔ a = 0#128 :=
    ⟨eq_zero_of_compressed, by rintro rfl; decide⟩
  have hone : compressed a = "::1".toList ↔ a = 1#128 :=
    ⟨eq_one_of_compressed, by rintro rfl; decide⟩
  simp only [Bool.or_eq_true, decide_eq_true_eq, hzero, hone, or_assoc]
  rcases compressed_cases a with ⟨rest, hrest⟩ | ⟨n, hn, -, hzeros, hrest⟩
  · rw [hrest, isPrefixOf_hex_linkLocal (piece_lt 0), isPrefixOf_hex_iff (piece_lt 0)]
    exact or_left_comm
  · have hfirst : piece a 0 = 0 := by
      refine hzeros _ ?_
      obtain ⟨m, rfl⟩ : ∃ m, n = m + 1 := ⟨n - 1, by omega⟩
      exact List.mem_cons_self
    have hnone : ¬ HasUniqueLocalPrefix 0 := by decide
    simp [hrest, hfirst, hnone, List.isPrefixOf, or_comm]

theorem blockedTarget_ipv6 (henv : env ≠ some "true".toList) :
    blockedTarget env (Host.ipv6 a).text = none ↔
      a ≠ 0#128 ∧ a ≠ 1#128 ∧ piece a 0 ≠ 0xFE80 ∧ ¬ HasUniqueLocalPrefix (piece a 0) := by
  have hlower : toLowerCase (Host.ipv6 a).text = (Host.ipv6 a).text := by
    refine toLowerCase_of_forall fun c hc => ?_
    rcases List.mem_cons.mp hc with rfl | hc
    · rfl
    rcases List.mem_append.mp hc with hc | hc
    · exact (compressed_plain hc).1
    · rw [List.mem_singleton.mp hc]
      rfl
  have hstrip : stripBrackets (toLowerCase (Host.ipv6 a).text) = compressed a := by
    rw [hlower]
    exact stripBrackets_brackets
  have hv4 : v4 (compressed a) = none := by
    rw [v4, split_of_not_mem fun h => (compressed_plain h).2.2 rfl]
  rw [blockedTarget, if_neg (by simpa [allowPrivateTargets] using henv)]
  simp only [hstrip, not_local fun h => (compressed_plain h).2.1 rfl, hv4, Bool.false_eq_true, if_false]
  rw [ite_eq_right_iff, refuses_compressed]
  simp only [reduceCtorEq, imp_false, not_or, ne_eq]

/-! ## Dotted addresses -/

private theorem octet_lt (i : Nat) : octet b i < 256 := Nat.mod_lt _ (by decide)

private theorem isOctet_toDigits {n : Nat} (hn : n < 256) : isOctet (Nat.toDigits 10 n) = true := by
  have hpos : 0 < (Nat.toDigits 10 n).length := List.length_pos_iff.mpr Nat.toDigits_ne_nil
  have hlen : (Nat.toDigits 10 n).length ≤ 3 :=
    (Nat.length_toDigits_le_iff (by decide) (by decide)).mpr (by omega)
  have hall : (Nat.toDigits 10 n).all Char.isDigit = true :=
    List.all_eq_true.mpr fun _ h => isDigit_of_mem_decimal h
  simp only [isOctet, hall, Bool.and_true, Bool.and_eq_true, decide_eq_true_eq]
  exact ⟨hpos, hlen⟩

private theorem dotted_plain (h : c ∈ dotted b) : c = '.' ∨ c.isDigit = true := by
  simp only [dotted, List.mem_append, List.mem_cons] at h
  rcases h with h | h | h | h | h | h | h
  all_goals first | exact .inl h | exact .inr (isDigit_of_mem_decimal h)

private theorem split_dotted : split '.' (dotted b) = [Nat.toDigits 10 (octet b 0),
    Nat.toDigits 10 (octet b 1), Nat.toDigits 10 (octet b 2), Nat.toDigits 10 (octet b 3)] := by
  have hdot (n : Nat) : '.' ∉ Nat.toDigits 10 n := fun h => by
    have := isDigit_of_mem_decimal h
    revert this
    decide
  rw [dotted, split_append (hdot _), split_append (hdot _), split_append (hdot _),
    split_of_not_mem (hdot _)]

private theorem v4_dotted : v4 (dotted b) = some (octet b 0, octet b 1) := by
  simp only [v4, split_dotted, isOctet_toDigits (octet_lt _), Bool.and_self, if_true,
    Nat.ofDigitChars_toDigits (b := 10) (by decide) (by decide)]

private theorem isDigit_plain (h : c.isDigit = true) : c.toLower = c ∧ c ≠ 'l' ∧ c ≠ ':' ∧ c ≠ 'f' ∧
    c ≠ '[' ∧ c ≠ ']' := by
  refine ⟨?_, ?_⟩
  · simp only [Char.isDigit, Bool.and_eq_true, decide_eq_true_eq] at h
    have hupper : ¬ (c.val ≥ 'A'.val ∧ c.val ≤ 'Z'.val) := by
      rintro ⟨hge, -⟩
      have := UInt32.le_trans hge h.2
      revert this
      decide
    rw [Char.toLower, dif_neg hupper]
  · refine ⟨?_, ?_, ?_, ?_, ?_⟩ <;> rintro rfl <;> revert h <;> decide

private theorem dotted_head : ∃ c t, dotted b = c :: t ∧ c.isDigit = true := by
  obtain ⟨c, t, h⟩ := List.exists_cons_of_ne_nil (Nat.toDigits_ne_nil (n := octet b 0) (b := 10))
  have hmem : c ∈ decimal (octet b 0) := by
    rw [decimal, h]
    exact List.mem_cons_self
  exact ⟨c, _, by rw [dotted, h, List.cons_append], isDigit_of_mem_decimal hmem⟩

theorem blockedTarget_ipv4 (henv : env ≠ some "true".toList) :
    blockedTarget env (Host.ipv4 b).text = none ↔ ¬ IsPrivate4 b := by
  have hchar (c : Char) (h : c ∈ dotted b) : c.toLower = c ∧ c ≠ 'l' ∧ c ≠ '[' ∧ c ≠ ']' := by
    rcases dotted_plain h with rfl | h
    · decide
    · obtain ⟨hlower, hl, -, -, hopen, hclose⟩ := isDigit_plain h
      exact ⟨hlower, hl, hopen, hclose⟩
  have hstrip : stripBrackets (toLowerCase (Host.ipv4 b).text) = dotted b := by
    rw [Host.text, toLowerCase_of_forall fun c h => (hchar c h).1]
    exact stripBrackets_of_not_mem (fun h => (hchar _ h).2.2.1 rfl) fun h => (hchar _ h).2.2.2 rfl
  obtain ⟨c, t, hhead, hdigit⟩ := dotted_head (b := b)
  obtain ⟨-, -, hcolon, hf, -⟩ := isDigit_plain hdigit
  have hv6 : (decide (dotted b = "::1".toList) || decide (dotted b = "::".toList) ||
      "fe80:".toList.isPrefixOf (dotted b) || "fc".toList.isPrefixOf (dotted b) ||
        "fd".toList.isPrefixOf (dotted b)) = false := by
    simp [hhead, List.isPrefixOf, hcolon, hf.symm]
  rw [blockedTarget, if_neg (by simpa [allowPrivateTargets] using henv)]
  simp only [hstrip, not_local fun h => (hchar _ h).2.1 rfl, hv6, v4_dotted, Bool.false_eq_true, if_false]
  rw [isPrivate4_iff]
  split_ifs <;> simp <;> omega

/-! ## Names -/

/-- The names of the host itself, of its subdomains and of the local network. -/
def IsLocalName (name : Text) : Prop :=
  name = "localhost".toList ∨ ".localhost".toList <:+ name ∨ ".local".toList <:+ name

private theorem v4_of_domain (d : Domain) : v4 d.name = none := by
  rw [v4]
  split
  · rename_i w x y z hsplit
    split
    · rename_i hoctets
      exfalso
      simp only [isOctet, Bool.and_eq_true, decide_eq_true_eq] at hoctets
      obtain ⟨-, ⟨hpos, -⟩, hdigits⟩ := hoctets
      obtain ⟨c, cs, rfl⟩ := List.exists_cons_of_length_pos hpos
      have hlast : lastLabel d.name = c :: cs := by simp [lastLabel, hsplit]
      have hnumber := d.notNumber
      rw [endsInNumber, hlast] at hnumber
      split at hnumber
      · contradiction
      · rename_i heq
        cases heq
        simp at hdigits
      · rw [hdigits] at hnumber
        cases hnumber
    · rfl
  · rfl

theorem blockedTarget_domain {d : Domain} (henv : env ≠ some "true".toList) (hlocal : ¬ IsLocalName d.name) :
    blockedTarget env (Host.domain d).text = none ↔ ¬ ("fc".toList <+: d.name ∨ "fd".toList <+: d.name) := by
  have hchar := d.plain
  have hstrip : stripBrackets (toLowerCase (Host.domain d).text) = d.name := by
    rw [Host.text, toLowerCase_of_forall fun c h => (hchar c h).2.2.2]
    exact stripBrackets_of_not_mem (fun h => (hchar _ h).2.1 rfl) fun h => (hchar _ h).2.2.1 rfl
  have hcolon : ':' ∉ d.name := fun h => (hchar _ h).1 rfl
  have hfe80 : "fe80:".toList.isPrefixOf d.name = false :=
    Bool.eq_false_iff.mpr fun h => hcolon ((List.isPrefixOf_iff_prefix.mp h).mem (by decide))
  have hone : d.name ≠ "::1".toList := fun h => hcolon (h ▸ by decide)
  have hzero : d.name ≠ "::".toList := fun h => hcolon (h ▸ by decide)
  have hlocal : (decide (d.name = "localhost".toList) || ".localhost".toList.isSuffixOf d.name ||
      ".local".toList.isSuffixOf d.name) = false := by
    have hsuffix {u : Text} (h : ¬ u <:+ d.name) : u.isSuffixOf d.name = false :=
      Bool.eq_false_iff.mpr fun hs => h (List.isSuffixOf_iff_suffix.mp hs)
    rw [decide_eq_false fun h => hlocal (.inl h), hsuffix fun h => hlocal (.inr (.inl h)),
      hsuffix fun h => hlocal (.inr (.inr h)), Bool.or_false, Bool.or_false]
  rw [blockedTarget, if_neg (by simpa [allowPrivateTargets] using henv)]
  simp only [hstrip, hlocal, v4_of_domain, hfe80, hone, hzero, decide_false, Bool.false_or,
    Bool.false_eq_true, if_false, Bool.or_eq_true, List.isPrefixOf_iff_prefix]
  simp only [ite_eq_right_iff, reduceCtorEq, imp_false]

/-! ## Deliveries -/

variable {newURL : Text → Option Url} {payload : Value} {url : Text} {u : Url}

/-- All other checks of a delivery passed, the filter decides. -/
theorem accepted_iff (hurl : payload.field? "url".toList = some (.string url)) (hnew : newURL url = some u)
    (hweb : u.protocol = "http:".toList ∨ u.protocol = "https:".toList)
    (htimeout : validateTimeout (payload.field? "timeoutMs".toList) = none) :
    validatePayload env newURL .deliver_webhook (some payload) = none ↔
      blockedTarget env u.hostname = none := by
  rw [validatePayload_webhook]
  constructor
  · rintro ⟨url', u', hurl', hnew', -, hblocked, -⟩
    obtain rfl : url' = url := Value.string.inj (Option.some.inj (hurl'.symm.trans hurl))
    obtain rfl : u' = u := Option.some.inj (hnew'.symm.trans hnew)
    exact hblocked
  · exact fun hblocked => ⟨url, u, hurl, hnew, hweb, hblocked, htimeout⟩

/-- A target on the default port. -/
def httpsUrl (host : Host) : Url := ⟨"https:".toList, [], [], host, none⟩

/-- The parser, as far as this URL goes. -/
def parses (url : Text) (u : Url) : Text → Option Url := fun t => if t = url then some u else none

/-- A delivery without a body. -/
def delivery (url : Text) : Value := .object [("url".toList, .string url)]

/-! ## Private addresses -/

/-- The private addresses that no test of the text finds: those of `fe80::/10` whose text begins
otherwise, and the mapped forms of the private IPv4 addresses. -/
def Host.Missed : Host → Prop
  | .ipv6 a => linkLocal.Contains a ∧ piece a 0 ≠ 0xFE80 ∨ ∃ b ∈ mapped a, IsPrivate4 b
  | _ => False

/-- Of the literals that are let through, the private ones are those of these two kinds. -/
theorem private_literals_let_through (henv : env ≠ some "true".toList)
    (h : validatePayload env newURL .deliver_webhook (some payload) = none) :
    ∃ url u, payload.field? "url".toList = some (.string url) ∧ newURL url = some u ∧
      (u.host.IsLiteral → (¬ u.host.IsPrivate ↔ ¬ u.host.Missed)) := by
  obtain ⟨url, u, hurl, hu, -, hblocked, -⟩ := validatePayload_webhook.mp h
  refine ⟨url, u, hurl, hu, fun hliteral => not_congr ?_⟩
  rw [Url.hostname] at hblocked
  cases hhost : u.host with
  | ipv4 b =>
      rw [hhost, blockedTarget_ipv4 henv] at hblocked
      exact iff_of_false hblocked not_false
  | ipv6 a =>
      rw [hhost, blockedTarget_ipv6 henv] at hblocked
      obtain ⟨hzero, hone, hlink, hlocal⟩ := hblocked
      have hrange : piece a 0 / 512 ≠ 0x7E := fun h => hlocal (.inr (.inr h))
      simp only [Host.IsPrivate, Host.Missed, IsPrivate6, exists_privateRanges6_iff, hzero, hone, hrange,
        hlink, false_or, or_false, ne_eq, not_false_eq_true, and_true]
  | domain d => exact (hhost ▸ hliteral : Host.IsLiteral (.domain d)).elim
  | other t => exact (hhost ▸ hliteral : Host.IsLiteral (.other t)).elim

/-- The mapped form of the address of a cloud's metadata service is let through. -/
theorem metadata_address_let_through :
    ∃ a : BitVec 128, (Host.ipv6 a).text = "[::ffff:a9fe:a9fe]".toList ∧ (Host.ipv6 a).IsPrivate ∧
      validatePayload none (parses "https://[::ffff:169.254.169.254]/".toList (httpsUrl (.ipv6 a)))
        .deliver_webhook (some (delivery "https://[::ffff:169.254.169.254]/".toList)) = none :=
  ⟨0xFFFFA9FEA9FE#128, by decide +kernel,
    .inr ⟨0xA9FEA9FE#32, by decide +kernel, isPrivate4_iff.mpr (by decide +kernel)⟩, by decide +kernel⟩

/-- A literal of the documentation range is let through, and it is not private. -/
theorem private_literals_let_through_documentation : ∃ url u,
    (delivery "https://[2001:db8::1]/".toList).field? "url".toList = some (.string url) ∧
      parses "https://[2001:db8::1]/".toList
        (httpsUrl (.ipv6 0x20010DB8000000000000000000000001#128)) url = some u ∧
      u.host.IsLiteral ∧ ¬ u.host.IsPrivate := by
  obtain ⟨url, u, hurl, hu, hiff⟩ := @private_literals_let_through none
    (parses "https://[2001:db8::1]/".toList (httpsUrl (.ipv6 0x20010DB8000000000000000000000001#128)))
    (delivery "https://[2001:db8::1]/".toList) (by decide) (by decide +kernel)
  have hparsed : u = httpsUrl (.ipv6 0x20010DB8000000000000000000000001#128) := by
    unfold parses at hu
    exact (Option.some.inj (Option.ite_none_right_eq_some.mp hu).2).symm
  subst hparsed
  refine ⟨url, _, hurl, hu, trivial, (hiff trivial).mpr ?_⟩
  have hmapped : mapped 0x20010DB8000000000000000000000001#128 = none := by decide +kernel
  rintro (⟨hlocal, -⟩ | ⟨b, hb, -⟩)
  · exact absurd hlocal (by decide +kernel)
  · rw [hmapped] at hb
    cases hb

/-! ## Public hosts -/

/-- `n > 0` -/
def JsNumber.isPositive : JsNumber → Bool
  | .nan => false
  | .infinite negative => !negative
  | .finite q => 0 < q

/-- Absent or a positive number. -/
def IsTimeout : Option Value → Prop
  | none => True
  | some (.number n) => n.isPositive = true
  | some _ => False

theorem validateTimeout_of_isTimeout {timeoutMs : Option Value} (h : IsTimeout timeoutMs) :
    validateTimeout timeoutMs = none := by
  cases timeoutMs with
  | none => rfl
  | some v =>
      cases v with
      | number n =>
          refine validateTimeout_eq_none.mpr (.inr ⟨n, rfl, ?_⟩)
          cases n with
          | nan => rfl
          | infinite negative => simpa [IsTimeout, JsNumber.isPositive, JsNumber.isNotPositive] using h
          | finite q => simpa [IsTimeout, JsNumber.isPositive, JsNumber.isNotPositive] using h
      | _ => exact h.elim

/-- A name that is not local, or an address of none of the ranges. -/
def Host.IsPublic : Host → Prop
  | .domain d => ¬ IsLocalName d.name
  | .ipv4 a => ¬ IsPrivate4 a
  | .ipv6 a => ¬ IsPrivate6 a
  | .other _ => False

/-- The text does not look like that of a unique local address: no name with `fc` or `fd` in front,
and no address whose first piece is `fc`, `fd` or one of these and one digit. -/
def Host.Spared : Host → Prop
  | .domain d => ¬ ("fc".toList <+: d.name ∨ "fd".toList <+: d.name)
  | .ipv6 a => ¬ (piece a 0 / 2 = 0x7E ∨ piece a 0 / 32 = 0x7E)
  | _ => True

theorem public_targets_accepted (henv : env ≠ some "true".toList)
    (hurl : payload.field? "url".toList = some (.string url)) (hnew : newURL url = some u)
    (hweb : u.protocol = "http:".toList ∨ u.protocol = "https:".toList) (hpublic : u.host.IsPublic)
    (htimeout : IsTimeout (payload.field? "timeoutMs".toList)) :
    validatePayload env newURL .deliver_webhook (some payload) = none ↔ u.host.Spared := by
  rw [accepted_iff hurl hnew hweb (validateTimeout_of_isTimeout htimeout), Url.hostname]
  cases hhost : u.host with
  | domain d =>
      rw [hhost] at hpublic
      exact blockedTarget_domain henv hpublic
  | ipv4 b =>
      rw [hhost] at hpublic
      rw [blockedTarget_ipv4 henv]
      exact iff_of_true hpublic trivial
  | ipv6 a =>
      rw [hhost] at hpublic
      have hranges : ¬ ∃ c ∈ privateRanges6, c.Contains a := fun h => hpublic (.inl h)
      rw [exists_privateRanges6_iff] at hranges
      simp only [not_or] at hranges
      obtain ⟨hzero, hone, hlink, hlocal⟩ := hranges
      rw [blockedTarget_ipv6 henv, Host.Spared, HasUniqueLocalPrefix]
      constructor
      · rintro ⟨-, -, -, hprefix⟩ h
        exact hprefix (h.elim .inl fun h => .inr (.inl h))
      · intro h
        refine ⟨hzero, hone, fun hpiece => hlink (linkLocal_of_piece hpiece), ?_⟩
        rintro (h' | h' | h')
        · exact h (.inl h')
        · exact h (.inr h')
        · exact hlocal h'
  | other t => exact (hhost ▸ hpublic : Host.IsPublic (.other t)).elim

/-- An ordinary name that begins like a unique local address is refused. -/
theorem public_name_refused : ∃ d : Domain, d.name = "fda.gov".toList ∧ (Host.domain d).IsPublic ∧
    validatePayload none (parses "https://fda.gov/".toList (httpsUrl (.domain d))) .deliver_webhook
      (some (delivery "https://fda.gov/".toList)) =
        some ("deliver_webhook payload.url points at a private IPv6 address, " ++
          "which this server will not call").toList :=
  ⟨⟨"fda.gov".toList, by decide, by simp, by decide⟩, rfl,
    by unfold Host.IsPublic IsLocalName; decide +kernel, by decide +kernel⟩

theorem public_targets_accepted_example : ∃ d : Domain, d.name = "example.com".toList ∧ (Host.domain d).IsPublic ∧
    validatePayload none (parses "https://example.com/".toList (httpsUrl (.domain d))) .deliver_webhook
      (some (delivery "https://example.com/".toList)) = none := by
  have hpublic : (Host.domain ⟨"example.com".toList, by decide, by simp, by decide⟩).IsPublic := by
    unfold Host.IsPublic IsLocalName
    decide +kernel
  have hspared : (Host.domain ⟨"example.com".toList, by decide, by simp, by decide⟩).Spared := by
    unfold Host.Spared
    decide +kernel
  have hiff : validatePayload none (parses "https://example.com/".toList (httpsUrl (.domain ⟨"example.com".toList,
      by decide, by simp, by decide⟩))) .deliver_webhook (some (delivery "https://example.com/".toList)) = none ↔ _ :=
    public_targets_accepted (by decide) rfl (if_pos rfl) (.inr rfl) hpublic (show IsTimeout none from trivial)
  exact ⟨_, rfl, hpublic, hiff.mpr hspared⟩

end QueueFlow
