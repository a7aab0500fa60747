import Mathlib.Data.List.Lex
import Mathlib.Tactic.IntervalCases
import Scopewright.Client.Item
import Scopewright.Proofs.Text.Order

/-! # The texts that sort items

A number is written with at least so many digits (`Text.padded`).  Below the first number that needs
more of them the texts have one length, and they are ordered as the numbers are (`Text.padded_lt`).
The first number that needs more is written in front of the one before it (`not_sortText_le`).

So the items of a list are strictly ordered by their texts, and a client that sorts them keeps the
ranking, just when there are no more candidates than the digits suffice for
(`itemList_sorted_iff`). -/

namespace Scopewright

namespace Text

/-! ### Texts of one length -/

/-- Texts of one length are told apart by what they begin with. -/
theorem append_lt_append {a b : Text} (hlt : a < b) (hlength : a.length = b.length) (x y : Text) :
    a ++ x < b ++ y := by
  induction hlt with
  | nil => cases hlength
  | rel hcd => exact .rel hcd
  | cons _ ih => exact .cons (ih (Nat.succ.inj hlength))

theorem concat_lt_concat (a : Text) {c d : CodeUnit} (hcd : c < d) : a ++ [c] < a ++ [d] :=
  List.Lex.append_left _ (.rel hcd) a

/-! ### Digits -/

/-- The unit of a digit. -/
def digit (d : ℕ) : CodeUnit := CodeUnit.ofBasic (Nat.digitChar d)

theorem digit_lt_digit {d e : ℕ} (hde : d < e) (he : e < 10) : digit d < digit e := by
  interval_cases e <;> interval_cases d <;> decide

theorem ofChar_digitChar {d : ℕ} (hd : d < 10) : CodeUnit.ofChar (Nat.digitChar d) = [digit d] := by
  interval_cases d <;> rfl

theorem ofNat_eq (n : ℕ) : ofNat n = (Nat.toDigits 10 n).flatMap CodeUnit.ofChar := by
  rw [ofNat, ofString, Nat.toString_eq_ofList_toDigits, String.toList_ofList]

theorem ofNat_of_lt {n : ℕ} (hn : n < 10) : ofNat n = [digit n] := by
  rw [ofNat_eq, Nat.toDigits_of_lt_base hn, List.flatMap_singleton, ofChar_digitChar hn]

theorem ofNat_of_ge {n : ℕ} (hn : 10 ≤ n) : ofNat n = ofNat (n / 10) ++ [digit (n % 10)] := by
  rw [ofNat_eq, Nat.toDigits_of_base_le (by omega) hn, List.flatMap_append, ← ofNat_eq,
    List.flatMap_singleton, ofChar_digitChar (Nat.mod_lt n (by omega))]

/-! ### Padded numbers -/

/-- A number written with at least so many digits. -/
def padded (width n : ℕ) : Text :=
  List.replicate (width - (ofNat n).length) (CodeUnit.ofBasic '0') ++ ofNat n

theorem padded_one {n : ℕ} (hn : n < 10) : padded 1 n = [digit n] := by
  rw [padded, ofNat_of_lt hn]
  rfl

/-- The last digit stands behind the number of tens. -/
theorem padded_succ {width : ℕ} (hwidth : 0 < width) (n : ℕ) :
    padded (width + 1) n = padded width (n / 10) ++ [digit (n % 10)] := by
  rcases Nat.lt_or_ge n 10 with hn | hn
  · obtain ⟨width, rfl⟩ := Nat.exists_eq_add_one.mpr hwidth
    rw [padded, padded, ofNat_of_lt hn, Nat.div_eq_of_lt hn, Nat.mod_eq_of_lt hn,
      ofNat_of_lt (by omega)]
    exact congrArg (· ++ [digit n]) List.replicate_succ'
  · rw [padded, ofNat_of_ge hn, padded, List.length_append, List.length_singleton,
      Nat.add_sub_add_right, List.append_assoc]

theorem length_padded {width n : ℕ} (hwidth : 0 < width) (hn : n < 10 ^ width) :
    (padded width n).length = width := by
  induction width, hwidth using Nat.le_induction generalizing n with
  | base => rw [padded_one hn]; rfl
  | succ width hwidth ih =>
      rw [padded_succ hwidth, List.length_append, ih (by omega)]
      rfl

/-- **Numbers of so many digits are ordered as their texts are.** -/
theorem padded_lt {width m n : ℕ} (hwidth : 0 < width) (hn : n < 10 ^ width) (hmn : m < n) :
    padded width m < padded width n := by
  induction width, hwidth using Nat.le_induction generalizing m n with
  | base =>
      rw [padded_one (by omega), padded_one hn]
      exact .rel (digit_lt_digit hmn hn)
  | succ width hwidth ih =>
      rw [padded_succ hwidth, padded_succ hwidth]
      rcases Nat.lt_or_ge (m / 10) (n / 10) with htens | htens
      · refine append_lt_append (ih (by omega) htens) ?_ _ _
        rw [length_padded hwidth (by omega), length_padded hwidth (by omega)]
      · have htens : m / 10 = n / 10 := by omega
        rw [htens]
        exact concat_lt_concat _ (digit_lt_digit (by omega) (Nat.mod_lt n (by omega)))

end Text

namespace Client

open Completion (Candidate)

/-! ### Sort texts -/

theorem sortText_eq_padded (index : ℕ) : sortText index = Text.padded sortWidth index := rfl

/-- The first index that needs another digit is written in front of the one before it. -/
theorem not_sortText_le :
    Text.le (sortText (10 ^ sortWidth - 1)) (sortText (10 ^ sortWidth)) = false := by
  rw [sortText, sortText, Text.ofNat_eq, Text.ofNat_eq]
  decide +kernel

theorem sortTexts_pairwise {n : ℕ} (hn : n ≤ 10 ^ sortWidth) :
    ((List.range n).map sortText).Pairwise (· < ·) := by
  refine List.pairwise_map.mpr (List.pairwise_lt_range.imp_of_mem fun _ hj hij => ?_)
  rw [sortText_eq_padded, sortText_eq_padded]
  exact Text.padded_lt (by decide) (Nat.lt_of_lt_of_le (List.mem_range.mp hj) hn) hij

theorem le_of_sortTexts_pairwise {n : ℕ}
    (hsorted : ((List.range n).map sortText).Pairwise (Text.le · ·)) : n ≤ 10 ^ sortWidth := by
  have hpos : 0 < 10 ^ sortWidth := by decide
  by_contra hlarge
  have hindex := List.pairwise_iff_getElem.mp (List.pairwise_map.mp hsorted) (10 ^ sortWidth - 1)
    (10 ^ sortWidth) (by rw [List.length_range]; omega) (by rw [List.length_range]; omega) (by omega)
  rw [List.getElem_range, List.getElem_range, not_sortText_le] at hindex
  cases hindex

/-! ### Items -/

/-- The items of candidates from a place of the ranking on. -/
def itemsFrom? (b : Buffer) (index : ℕ) (cs : List (Candidate × Extent)) : Option (List Item) :=
  (cs.zipIdx index).mapM fun ((c, e), index) => item? b c e index

variable {b : Buffer} {index : ℕ} {cs : List (Candidate × Extent)} {items : List Item}

theorem itemsFrom_cons (b : Buffer) (index : ℕ) (c : Candidate × Extent)
    (cs : List (Candidate × Extent)) :
    itemsFrom? b index (c :: cs) =
      (item? b c.1 c.2 index).bind fun i => (itemsFrom? b (index + 1) cs).map (i :: ·) := by
  obtain ⟨c, e⟩ := c
  rw [itemsFrom?, List.zipIdx_cons, List.mapM_cons, ← itemsFrom?]
  change (item? b c e index).bind
    (fun i => (itemsFrom? b (index + 1) cs).bind fun is => some (i :: is)) = _
  simp only [Option.map_eq_bind, Function.comp_def]

/-- There are items when all extents have a place. -/
theorem itemsFrom_isSome_iff :
    (itemsFrom? b index cs).isSome ↔ ∀ c ∈ cs, (b.rangeOf c.2).isSome := by
  induction cs generalizing index with
  | nil => exact iff_of_true rfl (List.forall_mem_nil _)
  | cons c cs ih =>
      rw [itemsFrom_cons, List.forall_mem_cons, ← @ih (index + 1), item?]
      cases b.rangeOf c.2 <;> simp

theorem sortTexts_itemsFrom (hitems : itemsFrom? b index cs = some items) :
    items.map Item.sortText = (List.range' index cs.length).map sortText := by
  induction cs generalizing index items with
  | nil =>
      cases hitems
      rfl
  | cons c cs ih =>
      rw [itemsFrom_cons] at hitems
      obtain ⟨i, hi, hitems⟩ := Option.bind_eq_some_iff.mp hitems
      obtain ⟨rest, hrest, rfl⟩ := Option.map_eq_some_iff.mp hitems
      obtain ⟨range, -, rfl⟩ := Option.map_eq_some_iff.mp hi
      rw [List.map_cons, ih hrest]
      rfl

theorem sortTexts_itemList (hitems : itemList? b cs = some items) :
    items.map Item.sortText = (List.range cs.length).map sortText := by
  rw [List.range_eq_range']
  exact sortTexts_itemsFrom hitems

/-- The order in which a client shows items. -/
def Item.le (i j : Item) : Bool := Text.le i.sortText j.sortText

theorem mergeSort_eq_self_iff :
    items.mergeSort Item.le = items ↔ (items.map Item.sortText).Pairwise (Text.le · ·) := by
  rw [List.pairwise_map]
  refine ⟨fun hself => ?_, fun hsorted => List.mergeSort_of_pairwise hsorted⟩
  rw [← hself]
  exact @List.pairwise_mergeSort Item Item.le (fun _ _ _ => Text.le_trans)
    (fun _ _ => Text.le_total _ _) items

/-- **The order of items.**  There are items just when all extents have a place.  Their texts are
strictly ordered, and a client that sorts them keeps the ranking, just when there are no more
candidates than the digits suffice for. -/
theorem itemList_sorted_iff (b : Buffer) (cs : List (Candidate × Extent)) :
    ((itemList? b cs).isSome ↔ ∀ c ∈ cs, (b.rangeOf c.2).isSome) ∧
      ∀ items ∈ itemList? b cs, items.length = cs.length ∧
        ((items.map Item.sortText).Pairwise (· < ·) ↔ cs.length ≤ 10 ^ sortWidth) ∧
        (items.mergeSort Item.le = items ↔ cs.length ≤ 10 ^ sortWidth) := by
  refine ⟨itemsFrom_isSome_iff, fun items hitems => ?_⟩
  have htexts := sortTexts_itemList hitems
  have hlength := congrArg List.length htexts
  rw [List.length_map, List.length_map, List.length_range] at hlength
  have hle (h : (items.map Item.sortText).Pairwise (· < ·)) :
      (items.map Item.sortText).Pairwise (Text.le · ·) := h.imp fun hlt => (Text.lt_iff.mp hlt).1
  refine ⟨hlength, ⟨fun h => ?_, fun hsmall => ?_⟩, ⟨fun hself => ?_, fun hsmall => ?_⟩⟩
  · exact le_of_sortTexts_pairwise (htexts ▸ hle h)
  · exact htexts ▸ sortTexts_pairwise hsmall
  · exact le_of_sortTexts_pairwise (htexts ▸ mergeSort_eq_self_iff.mp hself)
  · exact mergeSort_eq_self_iff.mpr (hle (htexts ▸ sortTexts_pairwise hsmall))

/-- One candidate more, and the last item is not behind the one before it. -/
theorem itemList_unsorted :
    let cs := List.replicate (10 ^ sortWidth + 1) (⟨[], [], ⟨0, 0⟩, none, .key, .startsWith, false,
      .schema⟩, ⟨0, 0⟩)
    ∃ items, itemList? (.ofText []) cs = some items ∧
      ¬(items.map Item.sortText).Pairwise (· < ·) := by
  intro cs
  have hplace : ((Buffer.ofText []).rangeOf ⟨0, 0⟩).isSome = true := by decide +kernel
  obtain ⟨items, hitems⟩ := Option.isSome_iff_exists.mp
    (@itemsFrom_isSome_iff (.ofText []) 0 cs |>.mpr fun c hc => List.eq_of_mem_replicate hc ▸ hplace)
  refine ⟨items, hitems, fun hsorted => ?_⟩
  rw [sortTexts_itemList hitems] at hsorted
  have hle := le_of_sortTexts_pairwise (hsorted.imp fun hlt => (Text.lt_iff.mp hlt).1)
  rw [List.length_replicate] at hle
  omega

end Client
end Scopewright
