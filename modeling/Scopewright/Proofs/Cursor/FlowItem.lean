import Scopewright.Proofs.Cursor.Flow
import Scopewright.Proofs.Cursor.Value

/-! # Items of a flow sequence being typed

Behind `key: [`, some items and their commas, the last item is being typed
(`Cursor.Yaml.Unfinished`).  Quotes are not looked at where brackets and commas are counted, so its
place and its text are found exactly when they can be told without the quotes
(`Cursor.Yaml.resolve_flow_iff`): not when a string among the items holds a comma. -/

namespace Scopewright
namespace Cursor
namespace Yaml

open Scopewright.Yaml

/-! ### What an item stands for -/

/-- What stands for an item: the text without white space in front and without an opening quote. -/
def itemText (t : Text) : Text :=
  let r := t.dropWhile CodeUnit.isBlank
  match r.head? >>= Quote.ofUnit? with
  | some q => valueText (some q) r.tail
  | none => r

theorem itemText_cons {t r : Text} {c : CodeUnit} (h : t.dropWhile CodeUnit.isBlank = c :: r) :
    itemText t = match Quote.ofUnit? c with
      | some q => valueText (some q) r
      | none => c :: r := by
  rw [itemText, h]
  rfl

theorem drop_blanks (t : Text) : t.drop (blanks t) = t.dropWhile CodeUnit.isBlank := by
  have hdrop := @List.drop_left _ (t.takeWhile CodeUnit.isBlank) (t.dropWhile CodeUnit.isBlank)
  rwa [List.takeWhile_append_dropWhile] at hdrop

theorem blanks_append {lead t : Text} (hlead : ∀ c ∈ lead, c.isBlank = true)
    (ht : ∀ c ∈ t.head?, c.isBlank = false) : blanks (lead ++ t) = lead.length := by
  have hnil : t.takeWhile CodeUnit.isBlank = [] := by
    cases t with
    | nil => rfl
    | cons c r => exact List.takeWhile_cons_of_neg (by simp [ht c rfl])
  rw [blanks, List.takeWhile_append_of_pos hlead, hnil, List.append_nil]

/-- The place and the text of the item that is being typed. -/
theorem valueToken_flow {lead t items last : Text} (hlead : ∀ c ∈ lead, c.isBlank = true)
    (h : Parted t items last) (offset : ℕ) :
    if 0 < 1 + balance t then
      (valueToken (lead ++ CodeUnit.ofBasic '[' :: t) offset).2 = some (looseCommas 0 t) ∧
        (valueToken (lead ++ CodeUnit.ofBasic '[' :: t) offset).1.text = itemText last
    else (valueToken (lead ++ CodeUnit.ofBasic '[' :: t) offset).2 = none := by
  obtain ⟨items', last', hparted, hflow⟩ := exists_flowItem t
  obtain ⟨rfl, rfl⟩ := hparted.unique h
  have hblanks : blanks (lead ++ CodeUnit.ofBasic '[' :: t) = lead.length :=
    blanks_append hlead fun c hc => by rw [← Option.some.inj hc]; rfl
  have hdrop : (lead ++ CodeUnit.ofBasic '[' :: t).drop lead.length = CodeUnit.ofBasic '[' :: t :=
    List.drop_left
  have hlast : (lead ++ CodeUnit.ofBasic '[' :: t).drop (lead.length + (items'.length + 1)) =
      last' := by
    rw [← List.drop_drop, hdrop, List.drop_succ_cons, h.eq_append, List.drop_left]
  split
  · rename_i hopen
    rw [if_pos hopen] at hflow
    have hitem : (lead ++ CodeUnit.ofBasic '[' :: t).drop
        (lead.length + (items'.length + 1) + blanks last') = last'.dropWhile CodeUnit.isBlank := by
      rw [← List.drop_drop, hlast, drop_blanks]
    refine ⟨by simp only [valueToken, hblanks, hdrop, hflow, Option.map_some], ?_⟩
    simp only [valueToken, hblanks, hdrop, hflow, hlast, hitem, itemText]
    cases hquote : (last'.dropWhile CodeUnit.isBlank).head? >>= Quote.ofUnit? with
    | none =>
        simp only [Option.isSome_none, Bool.false_eq_true, if_false, hitem]
        rfl
    | some q =>
        simp only [Option.isSome_some, if_true, ← List.tail_drop, hitem]
  · rename_i hopen
    rw [if_neg hopen] at hflow
    simp only [valueToken, hblanks, hdrop, hflow, Option.map_none]

/-! ### Commas in what an item stands for -/

theorem count_halveQuotes (t : Text) :
    (halveQuotes t).count (CodeUnit.ofBasic ',') = t.count (CodeUnit.ofBasic ',') := by
  fun_induction halveQuotes t with
  | case1 => rfl
  | case2 c => rfl
  | case3 c d r h ih =>
      obtain ⟨rfl, rfl⟩ := h
      rw [List.count_cons_of_ne (by decide), List.count_cons_of_ne (by decide),
        List.count_cons_of_ne (by decide), ih]
  | case4 c d r h ih => rw [List.count_cons, List.count_cons, ih]

theorem count_dropBackslashes (t : Text) :
    (dropBackslashes t).count (CodeUnit.ofBasic ',') = t.count (CodeUnit.ofBasic ',') := by
  fun_induction dropBackslashes t with
  | case1 => rfl
  | case2 c => rfl
  | case3 c d r h ih =>
      obtain ⟨rfl, _⟩ := h
      rw [List.count_cons, List.count_cons_of_ne (by decide), List.count_cons, ih]
  | case4 c d r h ih => rw [List.count_cons, List.count_cons, ih]

theorem count_itemText (t : Text) :
    (itemText t).count (CodeUnit.ofBasic ',') = t.count (CodeUnit.ofBasic ',') := by
  have hblank : (t.takeWhile CodeUnit.isBlank).count (CodeUnit.ofBasic ',') = 0 := by
    refine List.count_eq_zero.mpr fun hmem => ?_
    cases List.mem_takeWhile_imp hmem
  have hdrop : (t.dropWhile CodeUnit.isBlank).count (CodeUnit.ofBasic ',') =
      t.count (CodeUnit.ofBasic ',') := by
    have happend := congrArg (List.count (CodeUnit.ofBasic ','))
      (@List.takeWhile_append_dropWhile _ CodeUnit.isBlank t)
    rw [List.count_append, hblank, Nat.zero_add] at happend
    exact happend
  rw [← hdrop]
  cases hr : t.dropWhile CodeUnit.isBlank with
  | nil =>
      rw [itemText, hr]
      rfl
  | cons c r =>
      rw [itemText_cons hr]
      cases hquote : Quote.ofUnit? c with
      | none => rfl
      | some q =>
          have hne : c ≠ CodeUnit.ofBasic ',' := by
            rintro rfl
            cases hquote
          rw [List.count_cons_of_ne hne]
          cases q with
          | double => exact count_dropBackslashes r
          | single => exact count_halveQuotes r

/-! ### Items being typed -/

/-- A text between quotes as it is written: a single quote twice, and a double quote or a backslash
behind a backslash. -/
def writeIn : Quote → Text → Text
  | .single, t => t.flatMap fun c : CodeUnit => if c = '\'' then [c, c] else [c]
  | .double, t => t.flatMap fun c : CodeUnit =>
      if c = '"' ∨ c = '\\' then [CodeUnit.ofBasic '\\', c] else [c]

/-- An item that is being typed: a plain scalar, or a string behind an opening quote. -/
inductive Unfinished where
  | plain (t : Text) (h : ∀ c ∈ t.head?, c.isBlank = false ∧ Quote.ofUnit? c = none)
  | quoted (q : Quote) (content : Text)

/-- What has been typed of it. -/
def Unfinished.written : Unfinished → Text
  | plain t _ => t
  | quoted q content => q.unit :: writeIn q content

/-- What it stands for. -/
def Unfinished.value : Unfinished → Text
  | plain t _ => t
  | quoted _ content => content

theorem halveQuotes_cons {c : CodeUnit} (h : c ≠ CodeUnit.ofBasic '\'') (t : Text) :
    halveQuotes (c :: t) = c :: halveQuotes t := by
  cases t with
  | nil => rfl
  | cons d r => simp [halveQuotes, h]

theorem dropBackslashes_cons {c : CodeUnit} (h : c ≠ CodeUnit.ofBasic '\\') (t : Text) :
    dropBackslashes (c :: t) = c :: dropBackslashes t := by
  cases t with
  | nil => rfl
  | cons d r => simp [dropBackslashes, h]

theorem valueText_write (q : Quote) (t : Text) : valueText (some q) (writeIn q t) = t := by
  cases q with
  | single =>
      induction t with
      | nil => rfl
      | cons c t ih =>
          rw [writeIn, List.flatMap_cons, ← writeIn]
          by_cases hc : c = CodeUnit.ofBasic '\''
          · subst hc
            exact congrArg (CodeUnit.ofBasic '\'' :: ·) ih
          · rw [if_neg hc]
            exact (halveQuotes_cons hc _).trans (congrArg (c :: ·) ih)
  | double =>
      induction t with
      | nil => rfl
      | cons c t ih =>
          rw [writeIn, List.flatMap_cons, ← writeIn]
          by_cases hc : c = CodeUnit.ofBasic '"' ∨ c = CodeUnit.ofBasic '\\'
          · have hends : c.endsLine = false := by rcases hc with rfl | rfl <;> rfl
            have hread : dropBackslashes (CodeUnit.ofBasic '\\' :: c :: writeIn .double t) =
                c :: dropBackslashes (writeIn .double t) := by
              rw [dropBackslashes, if_pos ⟨rfl, by rw [hends]; rfl⟩]
            rw [if_pos hc]
            exact hread.trans (congrArg (c :: ·) ih)
          · rw [if_neg hc]
            exact (dropBackslashes_cons (fun h => hc (.inr h)) _).trans (congrArg (c :: ·) ih)

theorem itemText_written {gap : Text} (hgap : ∀ c ∈ gap, c.isBlank = true) (last : Unfinished) :
    itemText (gap ++ last.written) = last.value := by
  have hhead : ∀ c ∈ last.written.head?, c.isBlank = false := by
    cases last with
    | plain t h => exact fun c hc => (h c hc).1
    | quoted q content =>
        intro c hc
        obtain rfl := Option.some.inj hc
        cases q <;> rfl
  have hdrop : (gap ++ last.written).dropWhile CodeUnit.isBlank = last.written := by
    rw [← drop_blanks, blanks_append hgap hhead, List.drop_left]
  cases last with
  | plain t h =>
      cases t with
      | nil =>
          rw [itemText, hdrop]
          rfl
      | cons c r =>
          have hquote := (h c rfl).2
          rw [itemText_cons hdrop, hquote]
          rfl
  | quoted q content =>
      have hquote : Quote.ofUnit? q.unit = some q := by cases q <;> rfl
      rw [itemText_cons hdrop, hquote]
      exact valueText_write q content

/-! ### The whole sequence -/

/-- The completed items of a flow sequence as they are written, each with a comma behind it. -/
def separated (items : List Text) : Text := items.flatMap (· ++ [CodeUnit.ofBasic ','])

/-- A flow sequence of which the last item is being typed. -/
def flowText (items : List Text) (gap : Text) (last : Unfinished) : Text :=
  CodeUnit.ofBasic '[' :: (separated items ++ (gap ++ last.written))

/-- The items can be told by their commas without a look at quotes: all commas outside of brackets
are those behind the items, and the brackets are balanced, or in the last item not all closed. -/
structure Separable (items : List Text) (last : Text) : Prop where
  balanced : balance (separated items) = 0
  commas : looseCommas 0 (separated items) = items.length
  noComma : looseCommas 0 last = 0
  isOpen : 0 ≤ balance last

/-- The text holds no commas and no brackets. -/
def Free (t : Text) : Prop :=
  ∀ c ∈ t, c ≠ CodeUnit.ofBasic ',' ∧ c ≠ CodeUnit.ofBasic '[' ∧ c ≠ CodeUnit.ofBasic ']'

theorem free_of_blank {t : Text} (h : ∀ c ∈ t, c.isBlank = true) : Free t := by
  have hne : ∀ {c d : CodeUnit}, c.isBlank = true → d.isBlank = false → c ≠ d := by
    rintro c d hc hd rfl
    rw [hc] at hd
    cases hd
  exact fun c hc => ⟨hne (h c hc) rfl, hne (h c hc) rfl, hne (h c hc) rfl⟩

theorem Free.balance_eq_zero {t : Text} (h : Free t) : balance t = 0 := by
  rw [balance, List.count_eq_zero_of_not_mem fun hc => (h _ hc).2.1 rfl,
    List.count_eq_zero_of_not_mem fun hc => (h _ hc).2.2 rfl]
  rfl

theorem Free.looseCommas_eq_zero {t : Text} (h : Free t) (level : ℤ) : looseCommas level t = 0 := by
  induction t generalizing level with
  | nil => rfl
  | cons c t ih =>
      rw [looseCommas, if_neg fun hc => (h c List.mem_cons_self).1 hc.1,
        ih fun d hd => h d (List.mem_cons_of_mem c hd)]

/-- Items without commas and brackets can be told. -/
theorem separable_of_free {items : List Text} {last : Text} (h : ∀ item ∈ items, Free item)
    (hlast : Free last) : Separable items last := by
  have hitems : balance (separated items) = 0 ∧
      looseCommas 0 (separated items) = items.length := by
    induction items with
    | nil => exact ⟨rfl, rfl⟩
    | cons item items ih =>
        obtain ⟨hbalance, hcommas⟩ := ih fun item' hitem' => h item' (List.mem_cons_of_mem _ hitem')
        have hitem := h item List.mem_cons_self
        have hfirst : balance (item ++ [CodeUnit.ofBasic ',']) = 0 := by
          rw [balance_append, hitem.balance_eq_zero]
          rfl
        have hcomma : looseCommas 0 (item ++ [CodeUnit.ofBasic ',']) = 1 := by
          rw [looseCommas_concat, hitem.looseCommas_eq_zero, hitem.balance_eq_zero,
            if_pos ⟨rfl, rfl⟩]
        have hcons : separated (item :: items) =
            (item ++ [CodeUnit.ofBasic ',']) ++ separated items := List.flatMap_cons
        refine ⟨by rw [hcons, balance_append, hfirst, hbalance, Int.add_zero], ?_⟩
        rw [hcons, looseCommas_append, hcomma, hfirst, Int.zero_add, hcommas, Nat.add_comm,
          List.length_cons]
  exact ⟨hitems.1, hitems.2, hlast.looseCommas_eq_zero 0, Int.le_of_eq hlast.balance_eq_zero.symm⟩

theorem separated_eq (items : List Text) : separated items = [] ∨
    ∃ s, separated items = s ++ [CodeUnit.ofBasic ','] := by
  rcases List.eq_nil_or_concat items with rfl | ⟨before, item, rfl⟩
  · exact .inl rfl
  · refine .inr ⟨separated before ++ item, ?_⟩
    rw [List.concat_eq_append, separated, List.flatMap_append, List.flatMap_singleton,
      List.append_assoc]
    rfl

theorem Separable.parted {items : List Text} {gap last : Text} (h : Separable items last)
    (hgap : Free gap) : Parted (separated items ++ (gap ++ last)) (separated items) (gap ++ last) := by
  refine ⟨rfl, ?_, ?_⟩
  · rcases separated_eq items with hnil | ⟨s, hs⟩
    · exact .inl hnil
    · refine .inr ⟨s, hs, ?_⟩
      have hbalance := h.balanced
      rwa [hs, balance_append, balance_comma, Int.add_zero] at hbalance
  · rw [h.balanced, looseCommas_append, hgap.looseCommas_eq_zero, hgap.balance_eq_zero,
      Int.add_zero, h.noComma]

/-- Two ways to cut a text behind a comma, or before all of it, with as many commas behind, are the
same. -/
theorem cut_unique {s s' r r' : Text} (h : s ++ r = s' ++ r')
    (hs : s = [] ∨ ∃ u, s = u ++ [CodeUnit.ofBasic ','])
    (hs' : s' = [] ∨ ∃ u, s' = u ++ [CodeUnit.ofBasic ','])
    (hcount : r.count (CodeUnit.ofBasic ',') = r'.count (CodeUnit.ofBasic ',')) :
    s = s' ∧ r = r' := by
  have hmore : ∀ {s more : Text}, (s ++ more = [] ∨ ∃ u, s ++ more = u ++ [CodeUnit.ofBasic ',']) →
      more.count (CodeUnit.ofBasic ',') = 0 → more = [] := by
    intro s more hends hnone
    rcases List.eq_nil_or_concat more with hnil | ⟨u, c, hu⟩
    · exact hnil
    · rw [List.concat_eq_append] at hu
      subst hu
      rcases hends with hnil | ⟨v, hv⟩
      · simp at hnil
      · rw [← List.append_assoc] at hv
        obtain rfl := List.singleton_inj.mp (List.append_inj' hv rfl).2
        rw [List.count_append, List.count_singleton_self] at hnone
        omega
  rcases List.append_eq_append_iff.mp h with ⟨more, rfl, rfl⟩ | ⟨more, rfl, rfl⟩
  · rw [List.count_append] at hcount
    obtain rfl := hmore hs' (by omega)
    exact ⟨(List.append_nil _).symm, rfl⟩
  · rw [List.count_append] at hcount
    obtain rfl := hmore hs (by omega)
    exact ⟨List.append_nil _, rfl⟩

/-- The place of the last item is found and its text told, exactly when the items can be told
without a look at quotes. -/
theorem valueToken_flow_iff {lead gap : Text} {items : List Text} {last : Unfinished}
    (hblank : ∀ c ∈ lead ++ gap, c.isBlank = true) (offset : ℕ) :
    ((valueToken (lead ++ flowText items gap last) offset).2 = some items.length ∧
      (valueToken (lead ++ flowText items gap last) offset).1.text = last.value) ↔
      Separable items last.written := by
  have hlead : ∀ c ∈ lead, c.isBlank = true := fun c hc => hblank c (List.mem_append_left _ hc)
  have hgap : ∀ c ∈ gap, c.isBlank = true := fun c hc => hblank c (List.mem_append_right _ hc)
  have hfree := free_of_blank hgap
  have hbalance : balance (separated items ++ (gap ++ last.written)) =
      balance (separated items) + balance last.written := by
    rw [balance_append, balance_append, hfree.balance_eq_zero, Int.zero_add]
  constructor
  · rintro ⟨hplace, htext⟩
    obtain ⟨items', last', hparted, _⟩ := exists_flowItem (separated items ++ (gap ++ last.written))
    have hvalue := valueToken_flow hlead hparted offset
    split at hvalue
    · rename_i hopen
      have hcommas : looseCommas 0 (separated items ++ (gap ++ last.written)) = items.length :=
        Option.some.inj (hvalue.1.symm.trans hplace)
      have hcount : last'.count (CodeUnit.ofBasic ',') =
          (gap ++ last.written).count (CodeUnit.ofBasic ',') := by
        rw [← count_itemText, ← count_itemText (gap ++ _), itemText_written hgap, ← htext]
        exact congrArg _ hvalue.2.symm
      obtain ⟨rfl, rfl⟩ := cut_unique hparted.eq_append.symm
        (hparted.endsItem.imp id fun ⟨u, hu, _⟩ => ⟨u, hu⟩) (separated_eq items) hcount
      have hzero := hparted.endsItem.balance_eq_zero
      have hloose := hparted.noComma
      rw [hparted.looseCommas_eq] at hcommas
      rw [hzero, looseCommas_append, hfree.looseCommas_eq_zero, hfree.balance_eq_zero, Int.add_zero,
        Nat.zero_add] at hloose
      exact ⟨hzero, hcommas, hloose, by omega⟩
    · rw [show (valueToken (lead ++ flowText items gap last) offset).2 = none from hvalue] at hplace
      cases hplace
  · intro hsep
    have hvalue := valueToken_flow hlead (hsep.parted hfree) offset
    have hopen : 0 < 1 + balance (separated items ++ (gap ++ last.written)) := by
      have := hsep.balanced
      have := hsep.isOpen
      omega
    rw [if_pos hopen, itemText_written hgap] at hvalue
    refine ⟨hvalue.1.trans (congrArg some ?_), hvalue.2⟩
    rw [(hsep.parted hfree).looseCommas_eq, hsep.commas]

/-- Behind the colon of a key, the index of the last item of a flow sequence is added to the path
and its text is the token, exactly when the items can be told without a look at quotes. -/
theorem resolve_flow_iff {t lead gap : Text} {items : List Text} {last : Unfinished}
    (h : EndsWithColon t) (hlead : lead ≠ []) (hblank : ∀ c ∈ lead ++ gap, c.isBlank = true)
    (hline : CodeUnit.ofBasic '\n' ∉ lead ++ flowText items gap last) (rest : Text) :
    ((resolve (t ++ (lead ++ flowText items gap last) ++ rest)
          (t.length + (lead ++ flowText items gap last).length)).path =
        (resolve t t.length).path ++ [.index items.length] ∧
      (resolve (t ++ (lead ++ flowText items gap last) ++ rest)
          (t.length + (lead ++ flowText items gap last).length)).token.text = last.value) ↔
      Separable items last.written := by
  have hhead : (lead ++ flowText items gap last).head?.all CodeUnit.isBlank = true := by
    obtain ⟨c, r, rfl⟩ := List.exists_cons_of_ne_nil hlead
    exact hblank c List.mem_cons_self
  obtain ⟨hpath, htoken⟩ := resolve_behindColon h hhead hline rest
  have hindex : ∀ index : Option ℕ,
      ((index.map Segment.index).toList = [.index items.length] ↔ index = some items.length) := by
    intro index
    cases index <;> simp
  rw [hpath, htoken, List.append_right_inj, hindex]
  exact valueToken_flow_iff hblank t.length

/-! ### Commas in quotes -/

theorem endsWithColon_key : EndsWithColon "key:" where
  key := by decide +kernel
  noText := by decide +kernel

/-- A string that is typed behind a word and another string. -/
def typedString : Text := (" " : Text) ++ flowText ["a", " 'b'"] " " (.quoted .double "c")

theorem resolve_flow_iff_typedString :
    EndsWithColon "key:" ∧ (" " : Text) ≠ [] ∧ CodeUnit.ofBasic '\n' ∉ typedString ∧
      ((resolve (("key:" : Text) ++ typedString ++ []) (4 + typedString.length)).path =
            (resolve "key:" 4).path ++ [.index 2] ∧
          (resolve (("key:" : Text) ++ typedString ++ []) (4 + typedString.length)).token.text =
            ("c" : Text) ↔
        Separable ["a", " 'b'"] (Unfinished.quoted .double "c").written) :=
  have hline : CodeUnit.ofBasic '\n' ∉ typedString := by decide
  ⟨endsWithColon_key, by decide, hline,
    @resolve_flow_iff "key:" " " " " ["a", " 'b'"] (.quoted .double "c") endsWithColon_key
      (by decide) (by decide) hline []⟩

/-- A comma in a string among the items counts as one behind an item. -/
theorem resolve_flow_comma :
    ("key:" : Text) ++ ((" " : Text) ++ flowText ["\"a,b\""] " " (.plain "c" (by decide))) =
        "key: [\"a,b\", c" ∧
      (resolve "key:" 4).path = [.key "key"] ∧
      (resolve "key: [\"a,b\", c" 14).path = [.key "key", .index 2] := by
  refine ⟨rfl, ?_, ?_⟩
  · decide +kernel
  · decide +kernel

end Yaml
end Cursor
end Scopewright
