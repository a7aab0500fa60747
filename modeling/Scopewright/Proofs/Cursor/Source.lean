import Scopewright.Cursor.Resolve
import Scopewright.Proofs.Cursor.Token
import Scopewright.Proofs.SyntaxTest.Header
import Scopewright.Proofs.Text.Split

/-! # The source of the word under the cursor

Each format finds its token in front of the cursor in its own way: the body of a string or a run of
units in JSON, what follows dashes, keys and brackets in YAML, what follows the last tag in markup,
what follows a quote or a marker in a syntax test.  All of them cover the end of what stands before
the cursor, and only character data of elements is scanned as read (`resolve_sound`).

The part of a document from the start of the word to the cursor is therefore the source of the word
(`hasSource_resolve`), except in character data with a reference in front of the word that
changes.

The token at a cursor ends there and lies in the document, and its word does not begin in front of it
(`Token.Covers.bounds`).  The word begins `w` units behind the start of the token, when the scan
passes over `w` units of what it scans.  Where that is the source of the token the word begins in
front of the cursor.  In character data it is what the source reads as, and only a reference with a
bound name reads as more units than it is written with; behind such a reference the start of a word
may be reckoned beyond the cursor (`resolve_bounds`). -/

namespace Scopewright
namespace Cursor

open Scopewright.Markup

variable {t : Text} {n : ℕ}

theorem reverse_takeWhile_suffix (p : CodeUnit → Bool) (t : Text) :
    (t.reverse.takeWhile p).reverse <:+ t := by
  have h := List.reverse_suffix.mpr (t.reverse.takeWhile_prefix p)
  rwa [List.reverse_reverse] at h

/-! ### JSON -/

namespace Json

theorem le_of_openStringStart {p : Scopewright.Json.Passed} {start : ℕ}
    (h : openStringStart? t p n = some start) : start ≤ n := by
  unfold openStringStart? at h
  simp only at h
  split at h
  · cases h
  · rename_i hinside
    have hstart : start = p.start + 1 := by
      split at h <;> split at h <;> first | exact (Option.some.inj h).symm | cases h
    rw [not_or] at hinside
    omega

/-- A token covers the body of a string and stands for what the body reads as, or it covers units
that stand for themselves. -/
theorem resolve_covers (hn : n ≤ t.length) :
    (resolve t n).token.element = none ∧ ∃ raw, (resolve t n).token.Covers t n raw raw ∧
      ((resolve t n).token.text = Scopewright.Json.Quoted.unescape raw ∨
        (resolve t n).token.text = raw ∧ ∀ c ∈ raw, isBareUnit c = true) := by
  have hlength : (t.take n).length = n := List.length_take_of_le hn
  unfold resolve
  simp only
  cases hstart : (Scopewright.Json.locate t n).previous >>= (openStringStart? t · n) with
  | none =>
      refine ⟨rfl, bareToken t n, ⟨reverse_takeWhile_suffix _ _, rfl, rfl, rfl⟩, .inr ⟨rfl, ?_⟩⟩
      exact fun c hc => List.mem_takeWhile_imp (List.mem_reverse.mp hc)
  | some start =>
      obtain ⟨p, -, hp⟩ := Option.bind_eq_some_iff.mp hstart
      have hle := le_of_openStringStart hp
      refine ⟨rfl, (t.take n).drop start, ⟨List.drop_suffix _ _, ?_, rfl, rfl⟩, .inl rfl⟩
      rw [List.length_drop, hlength]
      show (start : ℤ) = _
      omega

theorem resolve_sound (hn : n ≤ t.length) (f : Format) :
    (resolve t n).token.Sound f t n := by
  obtain ⟨helement, raw, hcovers, -⟩ := resolve_covers hn
  exact .inl ⟨helement, raw, hcovers⟩

end Json

/-! ### YAML -/

namespace Yaml

open Scopewright.Yaml

theorem colonLength_le {t : Text} {k : ℕ} (h : colonLength? t = some k) : k ≤ t.length := by
  unfold colonLength? at h
  split at h
  · cases h
  · split at h
    · rw [← Option.some.inj h]
      exact Nat.sub_le _ _
    · cases h

theorem quotedHead_le {t : Text} {m : ℕ} {k : KeyHead} (h : quotedHead? t m = some k) :
    k.length ≤ t.length := by
  obtain ⟨j, hj, rfl⟩ := Option.map_eq_some_iff.mp h
  have hle := colonLength_le hj
  have hpos : t.drop m ≠ [] := by
    intro hnil
    rw [hnil] at hj
    cases hj
  have := List.length_pos_iff.mpr hpos
  rw [List.length_drop] at this hle
  show m + j ≤ _
  omega

theorem keyHead_le {t : Text} {k : KeyHead} (h : keyHead? t = some k) : k.length ≤ t.length := by
  cases t with
  | nil => cases h
  | cons c r =>
      rw [keyHead?] at h
      split at h
      · obtain ⟨m, -, hm⟩ := Option.bind_eq_some_iff.mp h
        exact quotedHead_le hm
      · split at h
        · obtain ⟨m, -, hm⟩ := Option.bind_eq_some_iff.mp h
          exact quotedHead_le hm
        · split at h
          · obtain ⟨j, hj, rfl⟩ := Option.map_eq_some_iff.mp h
            have hle := colonLength_le hj
            have hsource := (List.takeWhile_sublist isPlainKeyUnit (l := c :: r)).length_le
            rw [List.length_drop] at hle
            show ((c :: r).takeWhile isPlainKeyUnit).length + j ≤ _
            omega
          · cases h

theorem dashes_suffix (col : ℕ) (t : Text) : (dashes col t).content <:+ t := by
  fun_induction dashes col t with
  | case1 => exact List.suffix_refl []
  | case2 col c r _ rest inner ih =>
      exact (ih.trans (List.dropWhile_suffix _)).trans (List.suffix_cons c r)
  | case3 col c r => exact List.suffix_refl (c :: r)

theorem before_suffix (t : Text) (n : ℕ) : (Lines.around t n).before <:+ t.take n := by
  unfold Lines.around
  split
  · exact List.nil_suffix
  · rename_i before above hlines
    have hparts : Text.splitOn '\n' (t.take n) = above.reverse ++ [before] := by
      rw [← List.reverse_cons, ← hlines, List.reverse_reverse]
    have hsuffix := Text.suffix_join_concat (c := '\n') above.reverse before
    rwa [← hparts, Text.join_splitOn] at hsuffix

theorem foldl_flow_le (value : Text) (f : Flow) (h : f.itemStart ≤ f.next) :
    (value.foldl Flow.read f).itemStart ≤ f.next + value.length := by
  induction value generalizing f with
  | nil => exact h
  | cons c r ih =>
      have hread : (f.read c).itemStart ≤ (f.read c).next ∧ (f.read c).next = f.next + 1 := by
        simp only [Flow.read]
        split_ifs <;> simp <;> omega
      have hrest := ih (f.read c) hread.1
      rw [List.foldl_cons, List.length_cons]
      omega

theorem flowItem_le {value : Text} {i itemStart : ℕ} (h : flowItem? value = some (i, itemStart)) :
    itemStart ≤ value.length := by
  cases value with
  | nil => cases h
  | cons c r =>
      rw [flowItem?] at h
      simp only at h
      split at h
      · split at h
        · -- The bracket is the first unit that is read, and items begin behind it.
          have hread := foldl_flow_le r (Flow.read ⟨0, 0, 0, 1⟩ c) (by
            simp only [Flow.read]
            split_ifs <;> simp)
          have hnext : (Flow.read ⟨0, 0, 0, 1⟩ c).next = 1 := by
            simp only [Flow.read]
            split_ifs <;> rfl
          have hstart := congrArg Prod.snd (Option.some.inj h)
          rw [List.foldl_cons] at hstart
          rw [List.length_cons]
          omega
        · cases h
      · cases h

theorem blanks_le (t : Text) : blanks t ≤ t.length := (List.takeWhile_sublist _).length_le

/-- A token that covers what is left of a text behind some units. -/
theorem covers_drop {value : Text} {offset start : ℕ} {k : Token} (hvalue : value <:+ t.take n)
    (hoffset : offset + value.length = n) (hle : start ≤ value.length)
    (hstart : k.start = (offset + start : ℕ)) (hstop : k.stop = (offset + value.length : ℕ))
    (hselector : k.selector = Selector.scan (value.drop start) k.start) :
    k.Covers t n (value.drop start) (value.drop start) where
  suffix := (List.drop_suffix _ _).trans hvalue
  start := by
    rw [hstart, List.length_drop]
    omega
  stop := by rw [hstop, hoffset]
  selector := hselector

/-- A quote stands in the text that it is found in. -/
theorem behindQuote_le {value : Text} {start : ℕ} (h : start ≤ value.length) :
    (if ((value.drop start).head? >>= Quote.ofUnit?).isSome then start + 1 else start) ≤
      value.length := by
  split
  · rename_i hquote
    have hne : value.drop start ≠ [] := by
      intro hnil
      rw [hnil] at hquote
      cases hquote
    have := List.length_pos_iff.mpr hne
    rw [List.length_drop] at this
    omega
  · exact h

theorem valueToken_sound {value : Text} {offset : ℕ} (hvalue : value <:+ t.take n)
    (hoffset : offset + value.length = n) (f : Format) :
    (valueToken value offset).1.Sound f t n := by
  refine .inl ⟨rfl, _, covers_drop hvalue hoffset (behindQuote_le ?_) rfl rfl rfl⟩
  have hlead := blanks_le value
  split
  · rename_i i itemStart hflow
    have hitem := flowItem_le hflow
    have hblanks := blanks_le (value.drop (blanks value + itemStart))
    rw [List.length_drop] at hitem hblanks
    omega
  · exact hlead

/-- Walking up leaves the token as it is, or takes the whole line as text. -/
theorem climb_token (before : Text) (offset : ℕ) (above : List Text) (need : Need) (first : Bool)
    (f : Found) : (climb before offset need first f above).token = f.token ∨
      (climb before offset need first f above).token = blockTextToken before offset := by
  induction above generalizing need first f with
  | nil => exact .inl rfl
  | cons line above ih =>
      rw [climb]
      split
      · exact .inl rfl
      · split
        · exact ih need first f
        · exact ih _ _ _
        · split
          · exact .inr ((ih _ _ _).elim id id)
          · split
            · exact .inl rfl
            · exact ih _ _ _

theorem keyToken_sound {content : Text} (h : content <:+ t.take n) (hlength : content.length ≤ n)
    (f : Format) : (keyToken content (n - content.length)).Sound f t n := by
  cases content with
  | nil => exact Token.plain_sound List.nil_suffix none .key f
  | cons c r =>
      have hstop : ((n - (c :: r).length : ℕ) : ℤ) + ((c :: r).length : ℕ) = n := by omega
      cases hquote : Quote.ofUnit? c with
      | none =>
          simp only [keyToken, hquote, hstop]
          exact Token.plain_sound h none .key f
      | some q =>
          have hstart : ((n - (c :: r).length : ℕ) : ℤ) + 1 = (n - r.length : ℕ) := by
            rw [List.length_cons] at hlength ⊢
            omega
          simp only [keyToken, hquote, hstop, hstart]
          exact Token.plain_sound ((List.suffix_cons c r).trans h) (some q) .key f

theorem onLine_sound {d : Dashes} (hn : n ≤ t.length) (h : d.content <:+ t.take n) (f : Format) :
    (onLine d n).2.Sound f t n := by
  have hlength : d.content.length ≤ n := by
    have := h.length_le
    rwa [List.length_take_of_le hn] at this
  unfold onLine
  simp only
  cases hkey : keyHead? d.content with
  | some k =>
      have hle := keyHead_le hkey
      refine valueToken_sound ((List.drop_suffix _ _).trans h) ?_ f
      rw [List.length_drop]
      omega
  | none =>
      exact keyToken_sound h hlength f

theorem resolve_sound (hn : n ≤ t.length) (f : Format) : (resolve t n).token.Sound f t n := by
  have hbefore := before_suffix t n
  have hcontent := (dashes_suffix (indentOf (Lines.around t n).before)
    ((Lines.around t n).before.drop (indentOf (Lines.around t n).before))).trans
      ((List.drop_suffix _ _).trans hbefore)
  unfold resolve
  simp only
  rcases climb_token (Lines.around t n).before n (Lines.around t n).above _ true _
    with hclimb | hclimb
  · rw [hclimb]
    exact onLine_sound hn hcontent f
  · rw [hclimb]
    exact Token.plain_sound ((List.dropWhile_suffix _).trans hbefore) none .value f

end Yaml

/-! ### Markup -/

namespace Markup

/-- Character data of an element is scanned as read. -/
theorem data_sound {data text : Text} {f : Format} (hf : f = .plist ∨ f = .xml)
    (h : data <:+ t.take n) (hread : Reference.read data = .ok text) (position : Position)
    (name : Text) :
    (Token.plain text (n - data.length : ℕ) n none position (some name)).Sound f t n :=
  .inr ⟨hf, rfl, data, text, hread, h, rfl, rfl, rfl⟩

theorem resolvePlist_sound {top : Frame} {outer : List Frame} {path : Path} {data after : Text}
    {r : Resolution} (hdata : data <:+ t.take n)
    (h : resolvePlist top outer path data after n = .ok r) : r.token.Sound .plist t n := by
  have htrim : Text.trimStart data <:+ t.take n := (List.dropWhile_suffix _).trans hdata
  unfold resolvePlist at h
  simp only at h
  split at h
  · obtain ⟨text, htext, hkeys⟩ := ok_of_bind h
    obtain ⟨keys, -, hr⟩ := ok_of_bind hkeys
    rw [← Except.ok.inj hr]
    exact data_sound (.inl rfl) hdata htext .key "key"
  · split at h
    · obtain ⟨text, htext, hr⟩ := ok_of_bind h
      rw [← Except.ok.inj hr]
      exact data_sound (.inl rfl) hdata htext .value top.name
    · split at h
      · obtain ⟨keys, -, hr⟩ := ok_of_bind h
        rw [← Except.ok.inj hr]
        exact Token.plain_sound htrim none .key .plist
      · split at h
        · rw [← Except.ok.inj h]
          exact Token.plain_sound htrim none .value .plist
        · rw [← Except.ok.inj h]
          exact Token.plain_sound htrim none .unknown .plist

theorem resolveElements_sound {top : Frame} {outer : List Frame} {path : Path} {data : Text}
    {r : Resolution} (hdata : data <:+ t.take n)
    (h : resolveElements top outer path data n = .ok r) : r.token.Sound .xml t n := by
  unfold resolveElements at h
  simp only at h
  split at h
  · rw [← Except.ok.inj h]
    exact Token.plain_sound ((List.dropWhile_suffix _).trans hdata) none .key .xml
  · obtain ⟨text, htext, hr⟩ := ok_of_bind h
    rw [← Except.ok.inj hr]
    exact data_sound (.inr rfl) hdata htext .value top.name

theorem resolve_sound (plist : Bool) (t : Text) (n : ℕ) :
    (resolve plist t n).token.Sound (if plist then .plist else .xml) t n := by
  unfold resolve
  cases h : resolve? plist t n with
  | error e => exact Token.nowhere_sound _ t n [] true
  | ok r =>
      have hdata : (Before.of (t.take n)).data <:+ t.take n := reverse_takeWhile_suffix _ _
      unfold resolve? at h
      simp only at h
      split at h
      · rw [← Except.ok.inj h]
        exact Token.nowhere_sound _ t n _ false
      · split at h
        · rw [← Except.ok.inj h]
          exact Token.nowhere_sound _ t n _ false
        · cases plist with
          | true => exact resolvePlist_sound hdata h
          | false => exact resolveElements_sound hdata h

end Markup

/-! ### Syntax tests -/

namespace SyntaxTest

open Scopewright.SyntaxTest

theorem headerName_suffix {before name : Text} (h : headerName? before = some name) :
    name <:+ before := by
  obtain ⟨⟨start, rest⟩, hstart, hname⟩ := Option.bind_eq_some_iff.mp h
  simp only at hname
  split at hname
  · cases hname
  · rw [← Option.some.inj hname]
    exact headerStart_suffix hstart

/-- What stands between an offset and the cursor behind it. -/
theorem between_suffix_take {a : ℤ} (hn : n ≤ t.length) (ha : a ≤ n) :
    t.between a n <:+ t.take n := by
  have hstart : t.clamp a ≤ n := by
    unfold Text.clamp
    omega
  have hstop : t.clamp n = n := by
    unfold Text.clamp
    omega
  rw [Text.between, hstop, Nat.min_eq_left hstart, Nat.max_eq_right hstart, ← List.drop_take]
  exact List.drop_suffix _ _

theorem assertionText_suffix {d : Details} {text : Text} (hn : n ≤ t.length)
    (h : assertionText? t d n = some text) : text <:+ t.take n := by
  unfold assertionText? at h
  obtain ⟨marker, -, h⟩ := Option.bind_eq_some_iff.mp h
  obtain ⟨columns, -, h⟩ := Option.bind_eq_some_iff.mp h
  obtain ⟨mark, -, h⟩ := Option.bind_eq_some_iff.mp h
  simp only at h
  split at h
  · cases h
  · rename_i hstart
    rw [← Option.some.inj h]
    exact (List.dropWhile_suffix _).trans (between_suffix_take hn (Int.not_lt.mp hstart))

theorem single_sound {name text : Text} (hn : n ≤ t.length) (h : text <:+ t.take n)
    (quote : Option Quote) (f : Format) : (single name text n quote).token.Sound f t n := by
  have hlength := h.length_le
  rw [List.length_take_of_le hn] at hlength
  rw [single, ← Int.ofNat_sub hlength]
  exact Token.plain_sound h quote .value f

theorem resolve_sound (hn : n ≤ t.length) (f : Format) : (resolve t n).token.Sound f t n := by
  unfold resolve
  simp only
  split
  · rename_i name hheader
    split at hheader
    · exact single_sound hn ((headerName_suffix hheader).trans
        (between_suffix_take hn (Int.natCast_nonneg n))) (some .double) f
    · cases hheader
  · rename_i text _ htext
    exact single_sound hn (assertionText_suffix hn htext) none f
  · exact Token.nowhere_sound f t n [] false

end SyntaxTest

/-! ### Any document -/

theorem resolve_sound (t : Text) (offset : ℤ) (d : Dialect) :
    (resolve t offset d).token.Sound d.format t (t.clamp offset) := by
  have hn : t.clamp offset ≤ t.length := Nat.min_le_right _ _
  unfold resolve
  simp only
  cases d.format with
  | json => exact Json.resolve_sound hn .json
  | yaml => exact Yaml.resolve_sound hn .yaml
  | plist => exact Markup.resolve_sound true t _
  | xml => exact Markup.resolve_sound false t _
  | text => exact SyntaxTest.resolve_sound hn .text

/-- **The source of the word under the cursor.**  In JSON, in YAML and in syntax tests the part of
the document from the start of the word to the cursor is the word.  In markup it is the source of
the word, unless the token is character data in which a reference that changes begins in front of
the word; behind such a reference it is not, if no reference of the data has a bound name. -/
theorem hasSource_resolve (t : Text) (offset : ℤ) (d : Dialect) :
    (d.format ≠ .plist → d.format ≠ .xml →
      (resolve t offset d).token.wordSource t = (resolve t offset d).token.selector.word) ∧
    (¬ (resolve t offset d).token.Shifted t →
      (resolve t offset d).token.HasSource d.format t) ∧
    ((resolve t offset d).token.Shifted t →
      Reference.Plain ((resolve t offset d).token.source t) →
      ¬ (resolve t offset d).token.HasSource d.format t) := by
  have hn : t.clamp offset ≤ t.length := Nat.min_le_right _ _
  rcases resolve_sound t offset d with ⟨helement, raw, hraw⟩ | ⟨hf, helement, data, text, hread, h⟩
  · have hsource := hraw.wordSource_eq hn
    refine ⟨fun _ _ => hsource, fun _ => .inl hsource, fun hshifted => ?_⟩
    rw [Token.Shifted, helement] at hshifted
    exact absurd hshifted.1 Bool.false_ne_true
  · exact ⟨fun hplist hxml => (hf.elim hplist hxml).elim,
      fun hshifted => .inr ⟨hf, h.read_wordSource hn hread helement hshifted⟩,
      fun hshifted hplain => h.not_hasSource hn hread hplain hshifted d.format⟩

/-- Behind `&amp;` the start of a word is reckoned in what has been read, so what stands in the
document from there on begins inside the reference. -/
theorem not_hasSource_resolve :
    ¬ ∀ (t : Text) (offset : ℤ) (d : Dialect),
      (resolve t offset d).token.HasSource d.format t := by
  intro h
  let t := Text.ofString "<dict><key>scope</key><string>a &amp; b"
  have hword : (resolve t 39 .tmTheme).token.selector.word = Text.ofString "b" := by
    decide +kernel
  have hsource : (resolve t 39 .tmTheme).token.wordSource t = Text.ofString "mp; b" := by
    decide +kernel
  have hread : Reference.read (Text.ofString "mp; b") = .ok (Text.ofString "mp; b") := rfl
  have hne : Text.ofString "mp; b" ≠ Text.ofString "b" := by decide
  have hat := h t 39 .tmTheme
  rw [Token.HasSource, hword, hsource, IsSource, hread] at hat
  exact hat.elim hne fun hdecoded => hne (Except.ok.inj hdecoded.2)

/-! ### Where tokens lie -/

namespace Token

/-- What the token reads as has, in front of the word, no more units than the token is written
with. -/
def Contains (t : Text) (k : Token) : Prop :=
  ∀ text, Reference.read (k.source t) = .ok text →
    text.length ≤ (k.source t).length + k.selector.word.length

variable {t raw scanned : Text} {n : ℕ} {k : Token}

theorem contains_of_plain (h : Reference.Plain (k.source t)) : k.Contains t := by
  intro text htext
  have := Reference.length_le h htext
  omega

/-- A token lies in front of the cursor, and its word begins there when the scan passes over no more
units than the token has. -/
theorem Covers.bounds (hn : n ≤ t.length) (h : k.Covers t n raw scanned) :
    0 ≤ k.start ∧ k.start ≤ k.stop ∧ k.start ≤ k.selector.wordStart ∧
      (k.selector.wordStart ≤ k.stop ↔
        scanned.length ≤ (k.source t).length + k.selector.word.length) := by
  have hlength : raw.length ≤ n := by
    have := h.suffix.length_le
    rwa [List.length_take_of_le hn] at this
  obtain ⟨w, hw, hword, hwordStart, hsource, -⟩ := h.exists_word hn
  have hdropped : k.selector.word.length = scanned.length - w := by
    rw [hword, List.length_drop]
  have hstart := h.start
  have hstop := h.stop
  rw [hsource]
  omega

end Token

/-- The offset brought into the text is the nearest one that the text has. -/
theorem clamp_eq (t : Text) (offset : ℤ) :
    (t.clamp offset : ℤ) = max 0 (min offset t.length) := by
  unfold Text.clamp
  omega

/-- **Where the token at a cursor lies.**  It ends at the cursor, brought into the text, begins in the
text in front of it, and its word does not begin before the token.  The word begins in front of the
cursor unless the token is character data that reads as more units than it is written with, which
takes a reference with a bound name. -/
theorem resolve_bounds (t : Text) (offset : ℤ) (d : Dialect) :
    let k := (resolve t offset d).token
    (0 ≤ k.start ∧ k.start ≤ k.stop ∧ k.start ≤ k.selector.wordStart ∧
      k.stop = max 0 (min offset t.length)) ∧
    (k.selector.wordStart ≤ k.stop ↔ (k.element.isSome → k.Contains t)) ∧
    (d.format ≠ .plist → d.format ≠ .xml → k.selector.wordStart ≤ k.stop) ∧
    (Reference.Plain (k.source t) → k.selector.wordStart ≤ k.stop) := by
  intro k
  have hn : t.clamp offset ≤ t.length := Nat.min_le_right _ _
  rcases resolve_sound t offset d with ⟨helement, raw, h⟩ | ⟨hf, helement, data, text, hread, h⟩
  · obtain ⟨hstart, hstop, hword, hiff⟩ := h.bounds hn
    obtain ⟨-, -, -, -, hsource, -⟩ := h.exists_word hn
    have hbefore : k.selector.wordStart ≤ k.stop := hiff.mpr (by rw [hsource]; omega)
    have hnone : k.element = none := helement
    refine ⟨⟨hstart, hstop, hword, h.stop.trans (clamp_eq t offset)⟩, ?_, fun _ _ => hbefore,
      fun _ => hbefore⟩
    rw [hnone]
    exact ⟨fun _ hsome => absurd hsome Bool.false_ne_true, fun _ => hbefore⟩
  · obtain ⟨hstart, hstop, hword, hiff⟩ := h.bounds hn
    obtain ⟨-, -, -, -, hsource, -⟩ := h.exists_word hn
    have hcontains : k.selector.wordStart ≤ k.stop ↔ k.Contains t := by
      rw [hiff]
      constructor
      · intro hle text' htext'
        rw [hsource, hread] at htext'
        rwa [← Except.ok.inj htext']
      · intro hle
        exact hle text (by rw [hsource, hread])
    have hsome : k.element.isSome := helement
    refine ⟨⟨hstart, hstop, hword, h.stop.trans (clamp_eq t offset)⟩, ?_,
      fun hplist hxml => (hf.elim hplist hxml).elim,
      fun hplain => hcontains.mpr (Token.contains_of_plain hplain)⟩
    rw [hcontains]
    exact ⟨fun h _ => h, fun h => h hsome⟩

/-- The reference `&constructor;` reads as more than twice as many units as it has, and the last word
of them would begin twenty-one units behind the cursor. -/
theorem resolve_bounds_constructor :
    let t := Text.ofString "<dict><key>scope</key><string>&constructor;"
    let k := (resolve t 43 .tmTheme).token
    k.selector.wordStart = 64 ∧ k.stop = 43 ∧ ¬ k.selector.wordStart ≤ k.stop := by
  decide +kernel

end Cursor
end Scopewright
