import Scopewright.Proofs.Document.Plist
import Scopewright.Proofs.Markup.Place
import Scopewright.Proofs.Markup.Reference

/-! # What has been typed into an element

In the character data of an element, with no markup between its start tag and the cursor (`InText`), the
element is the innermost one that is open (`InText.exists_openAt`).  The token at the cursor is what
stands behind the last `>`.  That is the end of the start tag unless the data has a `>` itself, which
in character data is a unit like any other; so the token is all of the data exactly when no `>` is in
it (`token_resolve_iff`). -/

namespace Scopewright
namespace Cursor
namespace Markup

open Document (isPropertyList)
open Scopewright.Markup (Outside pieces piecesFrom piecesFrom_piece pieces_data construct
  dataPiece construct_complete construct_ends Ends Reference.OutOfRange Reference.read
  Reference.exists_read_drop)

/-! ### Behind the last tag -/

section before

variable {t data : Text}

theorem inTag_iff : (Before.of t).inTag = true ↔ CodeUnit.ofBasic '<' ∈ (Before.of t).data :=
  List.contains_iff_mem

theorem data_suffix : (Before.of t).data <:+ t := by
  rw [← List.reverse_prefix]
  show (List.takeWhile _ _).reverse.reverse <+: _
  rw [List.reverse_reverse]
  exact List.takeWhile_prefix _

/-- What stands in front of a `>` does not matter behind it. -/
theorem before_append (front data : Text) :
    Before.of (front ++ CodeUnit.ofBasic '>' :: data) = Before.of data := by
  have htake : (front ++ CodeUnit.ofBasic '>' :: data).reverse.takeWhile
      (· ≠ CodeUnit.ofBasic '>') = data.reverse.takeWhile (· ≠ CodeUnit.ofBasic '>') := by
    rw [List.reverse_append, List.reverse_cons, List.append_assoc, List.takeWhile_append,
      List.singleton_append, List.takeWhile_cons_of_neg (by simp), List.append_nil]
    split
    · rename_i hlength
      exact ((List.takeWhile_prefix _).eq_of_length hlength).symm
    · rfl
  unfold Before.of
  rw [htake]

theorem data_eq_iff : (Before.of t).data = t ↔ CodeUnit.ofBasic '>' ∉ t := by
  constructor
  · intro h hmem
    rw [← h] at hmem
    have hunit := List.mem_takeWhile_imp (List.mem_reverse.mp hmem)
    simp at hunit
  · intro h
    show (List.takeWhile _ _).reverse = t
    rw [List.takeWhile_eq_self_iff.mpr, List.reverse_reverse]
    intro c hc
    have hne : c ≠ CodeUnit.ofBasic '>' := by
      rintro rfl
      exact h (List.mem_reverse.mp hc)
    exact decide_eq_true hne

theorem mem_data_cons {c d : CodeUnit} (h : d ∈ (Before.of (c :: t)).data) :
    d = c ∨ d ∈ (Before.of t).data := by
  by_cases hend : CodeUnit.ofBasic '>' ∈ t
  · obtain ⟨front, data, rfl⟩ := List.append_of_mem hend
    rw [← List.cons_append, before_append] at h
    rw [before_append]
    exact .inr h
  · rw [data_eq_iff.mpr hend]
    exact List.mem_cons.mp (data_suffix.mem h)

/-- Behind markup only what follows it matters. -/
theorem before_markup {r : Text} {length : ℕ} (h : Ends r length) (front s : Text) :
    Before.of (front ++ (r.take length ++ s)) = Before.of s := by
  obtain ⟨inside, hinside⟩ := h.take
  rw [hinside, ← List.append_assoc, ← List.append_assoc, List.append_assoc (front ++ inside),
    List.singleton_append, before_append]

/-- A place outside of markup is not inside a tag. -/
theorem inTag_of_outside {i n : ℕ} (h : Outside i t n) : (Before.of (t.take n)).inTag = false := by
  rw [← Bool.not_eq_true, inTag_iff]
  induction h with
  | here => exact nofun
  | unit hc _ ih =>
      rw [List.take_succ_cons]
      intro hmem
      exact (mem_data_cons hmem).elim (fun h => hc h.symm) ih
  | @markup i n r kind last length hpiece _ ih =>
      have hends := construct_ends hpiece
      rw [List.take_succ_cons, List.take_add, ← List.singleton_append, before_markup hends]
      exact ih

end before

/-! ### Behind a start tag -/

/-- The place `n` is in the character data of an element: its start tag stands at the place `m` and ends
at `start`, and there is no markup behind the tag up to the place. -/
structure InText (t : Text) (m start n : ℕ) (name : Text) : Prop where
  outside : Outside 0 t m
  tag : ∃ r last length, t.drop m = CodeUnit.ofBasic '<' :: r ∧
    construct (m + 1) r = .piece (.opening name) last length ∧ start = m + 1 + length
  start_le : start ≤ n
  le_length : n ≤ t.length
  notMem : CodeUnit.ofBasic '<' ∉ (t.take n).drop start

namespace InText

variable {t name : Text} {m start n : ℕ}

theorem drop_take (h : InText t m start n name) : ∃ r last length,
    (t.take n).drop m = CodeUnit.ofBasic '<' :: r ∧
    construct (0 + m + 1) r = .piece (.opening name) last length ∧
    r.drop length = (t.take n).drop start := by
  obtain ⟨r, last, length, hr, hopen, rfl⟩ := h.tag
  have hstart := h.start_le
  have hle := h.le_length
  have hcomplete := construct_complete hopen
  have hlength := hcomplete.length_le
  have hrest : (t.take n).drop m = CodeUnit.ofBasic '<' :: r.take (n - m - 1) := by
    have hsucc : n - m = n - m - 1 + 1 := by omega
    rw [List.drop_take, hr, hsucc, List.take_succ_cons]
    rfl
  refine ⟨r.take (n - m - 1), last, length, hrest, ?_, ?_⟩
  · rw [Nat.zero_add]
    refine hcomplete.of_isPrefix _ (List.take_prefix _ r) ?_
    rw [List.length_take]
    omega
  · rw [Nat.add_assoc, ← List.drop_drop, hrest, Nat.add_comm 1, List.drop_succ_cons]

/-- The pieces in front of the place are those in front of the tag, the tag, and the data. -/
theorem exists_pieces (h : InText t m start n name) : ∃ tag data j, tag.kind = .opening name ∧
    (pieces (t.take n)).1 = (pieces (t.take m)).1 ++ tag :: dataPiece data j := by
  obtain ⟨r, last, length, hrest, hopen, hdata⟩ := h.drop_take
  have hm : m ≤ n ∧ n ≤ t.length := by
    obtain ⟨_, _, _, -, -, rfl⟩ := h.tag
    have := h.start_le
    have := h.le_length
    omega
  obtain ⟨ps, data, hps⟩ := h.outside.exists_pieces []
  have hfront := hps (t.take m) (List.take_prefix m t) (by rw [List.length_take]; omega)
  have hwhole := hps (t.take n) (List.take_prefix n t) (by rw [List.length_take]; omega)
  rw [List.drop_eq_nil_of_le (List.length_take_le m t), piecesFrom] at hfront
  rw [hrest, piecesFrom_piece hopen, hdata, pieces_data h.notMem, ← List.append_assoc,
    ← hfront] at hwhole
  exact ⟨_, _, _, rfl, hwhole⟩

/-- The frame of the element is the innermost one. -/
theorem exists_openAt (h : InText t m start n name) (plist : Bool) : ∃ f,
    openAt plist (t.take n) = f :: openAt plist (t.take m) ∧ f.name = name := by
  obtain ⟨tag, data, j, htag, hpieces⟩ := h.exists_pieces
  have hopened : read plist (openAt plist (t.take m)) tag =
      push plist name (openAt plist (t.take m)) := by
    rw [read, htag]
  unfold openAt at hopened ⊢
  rw [hpieces, List.foldl_append, List.foldl_cons, hopened]
  unfold dataPiece
  split
  · exact ⟨_, rfl, rfl⟩
  · -- data behind the tag goes into the text of a key
    refine ⟨_, rfl, ?_⟩
    split <;> rfl

/-- In front of the data stands the end of the tag. -/
theorem before_eq (h : InText t m start n name) :
    Before.of (t.take n) = Before.of ((t.take n).drop start) := by
  obtain ⟨r, last, length, hrest, hopen, hdata⟩ := h.drop_take
  have hsplit : t.take n = (t.take n).take m ++
      CodeUnit.ofBasic '<' :: (r.take length ++ r.drop length) := by
    rw [List.take_append_drop, ← hrest, List.take_append_drop]
  nth_rewrite 1 [hsplit]
  rw [List.append_cons, before_markup (construct_ends hopen), hdata]

theorem length_data (h : InText t m start n name) : ((t.take n).drop start).length = n - start := by
  rw [List.length_drop, List.length_take_of_le h.le_length]

end InText

/-! ### The token -/

/-- The element inside the open elements `outer` holds a token: it is a key or a scalar of a property
list, or in an element document it is inside another element. -/
def HoldsToken (plist : Bool) (outer : List Frame) (name : Text) : Prop :=
  if plist then name = "key" ∨ name ∈ valueNames else outer ≠ []

/-- The keys that are looked for behind a cursor: those behind a key of a property list. -/
def keysBehind (plist : Bool) (name after : Text) : Except Reference.OutOfRange (List Text) :=
  if plist && decide (name = "key") then followingKeys 0 after else .ok []

section token

variable {t name : Text} {m start n : ℕ} {plist : Bool}

/-- Outside of tags the innermost element tells what the cursor stands on. -/
theorem resolve?_of_openAt {f : Frame} {outer : List Frame}
    (hopen : openAt plist (t.take n) = f :: outer) (htag : (Before.of (t.take n)).inTag = false) :
    resolve? plist t n =
      if plist then resolvePlist f outer ((f :: outer).reverse.filterMap (·.segment))
        (Before.of (t.take n)).data (t.drop n) n
      else resolveElements f outer ((f :: outer).reverse.filterMap (·.segment))
        (Before.of (t.take n)).data n := by
  unfold resolve?
  rw [hopen]
  simp only [htag, Bool.false_eq_true, if_false]

/-- In an element that holds a token the data behind the last `>` is read, and then the keys. -/
theorem exists_resolution (h : InText t m start n name)
    (hholds : HoldsToken plist (openAt plist (t.take m)) name) :
    let data := (Before.of ((t.take n).drop start)).data
    ∃ resolution : Text → List Text → Resolution,
      resolve? plist t n = (Reference.read data).bind (fun v =>
        (keysBehind plist name (t.drop n)).bind fun ks => .ok (resolution v ks)) ∧
      ∀ v ks, (resolution v ks).token.text = v ∧
        (resolution v ks).token.start = (n - data.length : ℕ) := by
  intro data
  obtain ⟨f, hopen, rfl⟩ := h.exists_openAt plist
  have htag : (Before.of (t.take n)).inTag = false := by
    rw [h.before_eq, ← Bool.not_eq_true, inTag_iff]
    exact fun hmem => h.notMem (data_suffix.mem hmem)
  rw [resolve?_of_openAt hopen htag, h.before_eq]
  cases plist with
  | false =>
      have houter : (openAt false (t.take m)).isEmpty = false := List.isEmpty_eq_false_iff.mpr hholds
      simp only [Bool.false_eq_true, if_false, resolveElements, houter]
      exact ⟨fun v _ => _, rfl, fun v ks => ⟨rfl, rfl⟩⟩
  | true =>
      simp only [if_true, resolvePlist]
      by_cases hkey : f.name = Text.ofString "key"
      · have hbehind : keysBehind true f.name (t.drop n) = followingKeys 0 (t.drop n) := by
          simp [keysBehind, hkey]
        rw [if_pos hkey, hbehind]
        exact ⟨fun v ks => _, rfl, fun v ks => ⟨rfl, rfl⟩⟩
      · have hbehind : keysBehind true f.name (t.drop n) = .ok [] := by
          simp [keysBehind, hkey]
        have hvalue : valueNames.contains f.name = true :=
          List.contains_iff_mem.mpr (hholds.resolve_left hkey)
        rw [if_neg hkey, if_pos hvalue, hbehind]
        exact ⟨fun v _ => _, rfl, fun v ks => ⟨rfl, rfl⟩⟩

/-- Neither the data of the element in front of the cursor nor a key that is looked for behind it has a
number above the last code point. -/
def Readable (plist : Bool) (t : Text) (start n : ℕ) (name : Text) : Prop :=
  (∃ v, Reference.read ((t.take n).drop start) = .ok v) ∧
    ∃ ks, keysBehind plist name (t.drop n) = .ok ks

/-- A resolution that cannot be read has no token. -/
theorem token_malformed {e : Reference.OutOfRange} (h : resolve? plist t n = .error e) :
    (resolve plist t n).token.text = [] ∧ (resolve plist t n).token.start = n := by
  rw [resolve, h]
  exact ⟨rfl, rfl⟩

/-- What stands behind the last `>` can be read when all of the data can. -/
theorem exists_read_before {data v : Text} (hv : Reference.read data = .ok v) :
    ∃ w, Reference.read (Before.of data).data = .ok w := by
  rw [List.suffix_iff_eq_drop.mp data_suffix]
  exact Reference.exists_read_drop hv _

/-- A token that can be read is what stands behind the last `>`. -/
theorem token_readable (h : InText t m start n name)
    (hholds : HoldsToken plist (openAt plist (t.take m)) name)
    (hreadable : Readable plist t start n name) :
    let data := (Before.of ((t.take n).drop start)).data
    Reference.read data = .ok (resolve plist t n).token.text ∧
      (resolve plist t n).token.start = (n - data.length : ℕ) := by
  intro data
  obtain ⟨resolution, hresolve, htoken⟩ := exists_resolution h hholds
  obtain ⟨⟨v, hv⟩, ks, hks⟩ := hreadable
  obtain ⟨w, hw⟩ := exists_read_before hv
  have hresolved : resolve plist t n = resolution w ks := by
    rw [resolve, hresolve, hw, hks]
    rfl
  rw [hresolved, (htoken w ks).1, (htoken w ks).2]
  exact ⟨hw, rfl⟩

/-- When the data can be read, but not the keys behind a key, the token is lost. -/
theorem token_lost (h : InText t m start n name)
    (hholds : HoldsToken plist (openAt plist (t.take m)) name)
    (hreadable : ¬Readable plist t start n name) {v : Text}
    (hv : Reference.read ((t.take n).drop start) = .ok v) :
    (resolve plist t n).token.text = [] ∧ (resolve plist t n).token.start = n := by
  obtain ⟨resolution, hresolve, -⟩ := exists_resolution h hholds
  obtain ⟨w, hw⟩ := exists_read_before hv
  cases hks : keysBehind plist name (t.drop n) with
  | ok ks => exact absurd ⟨⟨v, hv⟩, ks, hks⟩ hreadable
  | error e =>
      refine token_malformed (e := e) ?_
      rw [hresolve, hw, hks]
      rfl

/-- **Typed text.**  In a key or a scalar of a property list and in an element inside another one, the
token is what stands behind the last `>`, decoded.  So it begins at the end of the start tag and is all
of the data, decoded, exactly when the data has no `>`; but a number that is too large in a key
behind a cursor in a key takes the token away. -/
theorem token_resolve_iff (h : InText t m start n name)
    (hholds : HoldsToken plist (openAt plist (t.take m)) name) :
    let data := (t.take n).drop start
    let token := (resolve plist t n).token
    (Readable plist t start n name → Reference.read (Before.of data).data = .ok token.text ∧
      token.start = (n - (Before.of data).data.length : ℕ)) ∧
    (token.start = start ∧ Reference.read data = .ok token.text ↔
      CodeUnit.ofBasic '>' ∉ data ∧ (data = [] ∨ Readable plist t start n name)) := by
  intro data token
  have hread (hreadable : Readable plist t start n name) :
      Reference.read (Before.of data).data = .ok token.text ∧
        token.start = (n - (Before.of data).data.length : ℕ) := token_readable h hholds hreadable
  refine ⟨hread, ?_⟩
  have hstart := h.start_le
  have hlength : data.length = n - start := h.length_data
  by_cases hreadable : Readable plist t start n name
  · obtain ⟨hv, hplace⟩ := hread hreadable
    have hsuffix : (Before.of data).data <:+ data := data_suffix
    have hle := hsuffix.length_le
    have hsame : token.start = start ↔ (Before.of data).data = data := by
      rw [hplace]
      constructor
      · intro hstarts
        exact hsuffix.eq_of_length (by omega)
      · intro heq
        rw [heq]
        omega
    rw [hsame, data_eq_iff]
    refine and_congr_right fun hend => iff_of_true ?_ (.inr hreadable)
    rw [← hv, data_eq_iff.mpr hend]
  · constructor
    · rintro ⟨hplace, hv⟩
      have hnil : data = [] := by
        have hn := (token_lost h hholds hreadable hv).2.symm.trans hplace
        rw [← List.length_eq_zero_iff]
        omega
      exact ⟨by rw [hnil]; exact nofun, .inl hnil⟩
    · rintro ⟨-, hnil | hreadable'⟩
      · have hempty : Reference.read data = .ok [] := by
          rw [hnil]
          rfl
        obtain ⟨htext, hplace⟩ := token_lost h hholds hreadable hempty
        rw [hnil, List.length_nil] at hlength
        refine ⟨?_, by rw [hempty, htext]⟩
        rw [hplace]
        omega
      · exact absurd hreadable' hreadable

/-- An escaped `>` is typed into the scope of a snippet. -/
theorem token_resolve_iff_escaped :
    let t := Text.ofString "<snippet><scope>a &gt; b</scope></snippet>"
    InText t 9 16 24 "scope" ∧ HoldsToken false (openAt false (t.take 9)) "scope" ∧
      (resolve false t 24).token.start = 16 ∧
      Reference.read ((t.take 24).drop 16) = .ok (resolve false t 24).token.text := by
  intro t
  have hsnippet : construct 1 (t.drop 1) = .piece (.opening "snippet") 7 8 := rfl
  have hscope : construct 10 (t.drop 10) = .piece (.opening "scope") 5 6 := rfl
  have htext : InText t 9 16 24 "scope" :=
    ⟨.markup hsnippet (.here _ _), ⟨_, _, _, rfl, hscope, rfl⟩, by decide, by decide, by decide⟩
  have houter : HoldsToken false (openAt false (t.take 9)) "scope" := by
    have hopen : (openAt false (t.take 9)).isEmpty = false := by decide +kernel
    exact List.isEmpty_eq_false_iff.mp hopen
  have hreadable : Readable false t 16 24 "scope" := ⟨⟨"a > b", rfl⟩, [], rfl⟩
  exact ⟨htext, houter, (token_resolve_iff htext houter).2.mpr ⟨by decide, .inr hreadable⟩⟩

/-- A `>` as it stands cuts the data off: the token is what stands behind it. -/
theorem token_resolve_cut :
    let t := Text.ofString "<dict><key>scope</key><string>a > b</string></dict>"
    isPropertyList t = true ∧ InText t 22 30 35 "string" ∧
      HoldsToken true (openAt true (t.take 22)) "string" ∧
      Reference.read ((t.take 35).drop 30) = .ok "a > b" ∧
      (resolve true t 35).token.text = " b" ∧ (resolve true t 35).token.start = 33 := by
  intro t
  have hdict : construct 1 (t.drop 1) = .piece (.opening "dict") 4 5 := rfl
  have hkey : construct 7 (t.drop 7) = .piece (.opening "key") 3 4 := rfl
  have hkeyEnd : construct 17 (t.drop 17) = .piece (.closing "key") 4 5 := rfl
  have hstring : construct 23 (t.drop 23) = .piece (.opening "string") 6 7 := rfl
  have hplace : Outside 0 t 22 :=
    .markup hdict (.markup hkey (.unit (by decide) (.unit (by decide) (.unit (by decide)
      (.unit (by decide) (.unit (by decide) (.markup hkeyEnd (.here _ _))))))))
  have htext : InText t 22 30 35 "string" :=
    ⟨hplace, ⟨_, _, _, rfl, hstring, rfl⟩, by decide, by decide, by decide⟩
  exact ⟨by decide +kernel, htext, .inr (by decide), rfl, by decide +kernel, by decide +kernel⟩

end token

end Markup
end Cursor
end Scopewright
