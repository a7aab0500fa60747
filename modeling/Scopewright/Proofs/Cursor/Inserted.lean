import Scopewright.Proofs.Completion.Insertion
import Scopewright.Proofs.Cursor.FlowItem
import Scopewright.Proofs.Json.Readback

/-! # Values inserted between quotes

A value that is put into a quoted scalar is escaped for the quote, and the cursor behind it reads it
back.  In single quotes every value reads back.  In double quotes an escape is read by dropping its
backslash (`Json.Quoted.bare`), which is right for quotes and backslashes alone: a control character
comes back as the letter or the number it is written by, and so does a surrogate without its
partner.  So a value reads back exactly when it has none of them (`Json.Quoted.Legible`,
`Cursor.Yaml.resolve_inserted`). -/

namespace Scopewright

namespace Json
namespace Quoted

/-- A unit that is written by another one or by its number, if it is not half of a surrogate
pair. -/
def IsSpecial (c : CodeUnit) : Prop :=
  c.toNat < 32 ∨ c.isLeadSurrogate = true ∨ c.isTrailSurrogate = true

instance : DecidablePred IsSpecial := fun _ => inferInstanceAs (Decidable (_ ∨ _))

/-- What is left of an escaped unit without the backslash of its escape. -/
def bareUnit (c : CodeUnit) : Text := if IsSpecial c then (escapeUnit c).tail else [c]

/-- What is left of an escaped text without the backslashes of its escapes. -/
def bare : Text → Text
  | [] => []
  | [c] => bareUnit c
  | c :: d :: r =>
    if c.isLeadSurrogate && d.isTrailSurrogate then c :: d :: bare r
    else bareUnit c ++ bare (d :: r)

/-- No control character, and no surrogate without its partner. -/
def Legible : Text → Prop
  | [] => True
  | [c] => ¬ IsSpecial c
  | c :: d :: r =>
    if c.isLeadSurrogate && d.isTrailSurrogate then Legible r else ¬ IsSpecial c ∧ Legible (d :: r)

theorem isWord_of_mem_byNumber {c d : CodeUnit} (h : d ∈ (byNumber c).tail) : d.isWord = true := by
  have hlt : c.toNat < 65536 := c.code.toNat_lt
  simp only [byNumber, List.tail_cons, List.mem_cons, List.not_mem_nil, or_false] at h
  rcases h with rfl | rfl | rfl | rfl | rfl
  · decide
  all_goals exact CodeUnit.isWord_of_isHexDigit (isHexDigit_hexDigit _ (by omega))

/-- A unit is written as it is, behind a backslash, or by a word behind one. -/
theorem escapeUnit_cases (c : CodeUnit) :
    (¬ IsSpecial c ∧ c ≠ quote ∧ c ≠ backslash ∧ escapeUnit c = [c]) ∨
    (¬ IsSpecial c ∧ (c = quote ∨ c = backslash) ∧ escapeUnit c = [backslash, c]) ∨
    (IsSpecial c ∧ ∃ d w, (∀ e ∈ d :: w, e.isWord = true) ∧ d :: w ≠ [c] ∧
      escapeUnit c = backslash :: d :: w) := by
  unfold escapeUnit
  split_ifs with hquote hback hfeed hreturn htab height htwelve hnumber
  · subst hquote
    exact .inr (.inl ⟨by decide, .inl rfl, rfl⟩)
  · subst hback
    exact .inr (.inl ⟨by decide, .inr rfl, rfl⟩)
  · subst hfeed
    exact .inr (.inr ⟨by decide, 'n', [], by decide, by decide, rfl⟩)
  · subst hreturn
    exact .inr (.inr ⟨by decide, 'r', [], by decide, by decide, rfl⟩)
  · subst htab
    exact .inr (.inr ⟨by decide, 't', [], by decide, by decide, rfl⟩)
  · obtain rfl : c = .ofNat 8 := by rw [← height, CodeUnit.ofNat_toNat]
    exact .inr (.inr ⟨by decide, 'b', [], by decide, by decide, rfl⟩)
  · obtain rfl : c = .ofNat 12 := by rw [← htwelve, CodeUnit.ofNat_toNat]
    exact .inr (.inr ⟨by decide, 'f', [], by decide, by decide, rfl⟩)
  · exact .inr (.inr ⟨hnumber, _, _, fun e he => isWord_of_mem_byNumber (c := c) he, by simp, rfl⟩)
  · exact .inl ⟨hnumber, hquote, hback, rfl⟩

/-- What is written holds no control characters. -/
theorem le_of_mem_escapeUnit {c d : CodeUnit} (h : d ∈ escapeUnit c) : 32 ≤ d.toNat := by
  have hlarge : ∀ e : CodeUnit, ¬ IsSpecial e → 32 ≤ e.toNat :=
    fun e he => Nat.le_of_not_lt fun hlt => he (.inl hlt)
  have hword : ∀ e : CodeUnit, e.isWord = true → 32 ≤ e.toNat := by
    intro e he
    rw [CodeUnit.isWord_iff] at he
    omega
  have hback : 32 ≤ backslash.toNat := by decide
  rcases escapeUnit_cases c with ⟨hc, -, -, heq⟩ | ⟨hc, -, heq⟩ | ⟨-, e, w, hw, -, heq⟩
  · rw [heq, List.mem_singleton] at h
    exact h ▸ hlarge c hc
  · rw [heq] at h
    rcases List.mem_cons.mp h with rfl | h
    · exact hback
    · exact List.mem_singleton.mp h ▸ hlarge c hc
  · rw [heq] at h
    rcases List.mem_cons.mp h with rfl | h
    · exact hback
    · exact hword d (hw d h)

theorem le_of_mem_escape {t : Text} {d : CodeUnit} (h : d ∈ escape t) : 32 ≤ d.toNat := by
  fun_induction escape t with
  | case1 => cases h
  | case2 c => exact le_of_mem_escapeUnit h
  | case3 c e r hpair ih =>
      obtain ⟨hc, he⟩ := Bool.and_eq_true_iff.mp hpair
      rw [CodeUnit.isLeadSurrogate, CodeUnit.within_iff] at hc
      rw [CodeUnit.isTrailSurrogate, CodeUnit.within_iff] at he
      have hlead : (CodeUnit.ofNat 0xD800).toNat = 0xD800 := rfl
      have htrail : (CodeUnit.ofNat 0xDC00).toNat = 0xDC00 := rfl
      rcases List.mem_cons.mp h with rfl | h
      · omega
      rcases List.mem_cons.mp h with rfl | h
      · omega
      · exact ih h
  | case4 c e r _ ih =>
      rcases List.mem_append.mp h with h | h
      · exact le_of_mem_escapeUnit h
      · exact ih h

/-! ### Texts that read back -/

theorem bareUnit_ne_nil (c : CodeUnit) : bareUnit c ≠ [] := by
  unfold bareUnit
  rcases escapeUnit_cases c with ⟨h, -⟩ | ⟨h, -⟩ | ⟨h, d, w, -, -, heq⟩
  · simp [h]
  · simp [h]
  · simp [h, heq]

theorem bareUnit_eq_iff {c : CodeUnit} : bareUnit c = [c] ↔ ¬ IsSpecial c := by
  unfold bareUnit
  rcases escapeUnit_cases c with ⟨h, -⟩ | ⟨h, -⟩ | ⟨h, d, w, -, hne, heq⟩
  · simp [h]
  · simp [h]
  · rw [if_pos h, heq, List.tail_cons]
    exact iff_of_false hne (not_not.mpr h)

theorem length_le_bare (t : Text) : t.length ≤ (bare t).length := by
  fun_induction bare t with
  | case1 => exact Nat.le_refl 0
  | case2 c => exact List.length_pos_iff.mpr (bareUnit_ne_nil c)
  | case3 c d r _ ih => simpa using ih
  | case4 c d r _ ih =>
      have := List.length_pos_iff.mpr (bareUnit_ne_nil c)
      simp only [List.length_append, List.length_cons] at *
      omega

theorem bare_eq_iff (t : Text) : bare t = t ↔ Legible t := by
  fun_induction bare t with
  | case1 => simp [Legible]
  | case2 c => exact bareUnit_eq_iff
  | case3 c d r h ih => simpa [Legible, h] using ih
  | case4 c d r h ih =>
      rw [Legible, if_neg h, ← ih, ← bareUnit_eq_iff]
      constructor
      · intro heq
        have hunit := List.length_pos_iff.mpr (bareUnit_ne_nil c)
        have hrest := length_le_bare (d :: r)
        have hlength := congrArg List.length heq
        simp only [List.length_append, List.length_cons] at hlength hrest
        exact List.append_inj (show bareUnit c ++ bare (d :: r) = [c] ++ (d :: r) from heq)
          (by rw [List.length_singleton]; omega)
      · rintro ⟨hunit, hrest⟩
        rw [hunit, hrest]
        rfl

end Quoted
end Json

namespace Cursor
namespace Yaml

open Scopewright.Yaml
open Json.Quoted (escape escapeUnit escapeUnit_cases byNumber bare bareUnit Legible)

/-! ### Reading in double quotes -/

theorem endsLine_of_isWord {c : CodeUnit} (h : c.isWord = true) : c.endsLine = false := by
  have hne : ∀ d : CodeUnit, d.isWord = false → c ≠ d := fun d hd => CodeUnit.ne_of_isWord h hd
  simp [CodeUnit.endsLine, hne _ (show CodeUnit.isWord '\n' = false by decide),
    hne _ (show CodeUnit.isWord '\r' = false by decide),
    hne _ (show (CodeUnit.ofNat 0x2028).isWord = false by decide),
    hne _ (show (CodeUnit.ofNat 0x2029).isWord = false by decide)]

theorem dropBackslashes_backslash {d : CodeUnit} (h : d.endsLine = false) (s : Text) :
    dropBackslashes (Json.Quoted.backslash :: d :: s) = d :: dropBackslashes s := by
  rw [dropBackslashes, if_pos ⟨rfl, by rw [h]; rfl⟩]

theorem dropBackslashes_word {w : Text} (h : ∀ c ∈ w, c.isWord = true) (s : Text) :
    dropBackslashes (w ++ s) = w ++ dropBackslashes s := by
  induction w with
  | nil => rfl
  | cons c w ih =>
      have hc : c ≠ CodeUnit.ofBasic '\\' := CodeUnit.ne_of_isWord (h c (by simp)) (by decide)
      rw [List.cons_append, dropBackslashes_cons hc, ih fun d hd => h d (by simp [hd])]
      rfl

theorem dropBackslashes_escapeUnit (c : CodeUnit) (s : Text) :
    dropBackslashes (escapeUnit c ++ s) = bareUnit c ++ dropBackslashes s := by
  unfold bareUnit
  rcases escapeUnit_cases c with ⟨h, -, hback, heq⟩ | ⟨h, hc, heq⟩ | ⟨h, d, w, hw, -, heq⟩
  · rw [heq, if_neg h]
    exact dropBackslashes_cons hback s
  · have hends : c.endsLine = false := by rcases hc with rfl | rfl <;> rfl
    rw [heq, if_neg h]
    exact dropBackslashes_backslash hends s
  · have hends := endsLine_of_isWord (hw d (by simp))
    rw [heq, if_pos h]
    show dropBackslashes (Json.Quoted.backslash :: d :: (w ++ s)) = d :: (w ++ dropBackslashes s)
    rw [dropBackslashes_backslash hends, dropBackslashes_word fun e he => hw e (by simp [he])]

theorem dropBackslashes_escape (t : Text) : dropBackslashes (escape t) = bare t := by
  fun_induction escape t with
  | case1 => rfl
  | case2 c => simpa [bare, dropBackslashes] using dropBackslashes_escapeUnit c []
  | case3 c d r h ih =>
      obtain ⟨hc, hd⟩ := Bool.and_eq_true_iff.mp h
      have hc := Json.Quoted.ne_backslash_of_lead hc
      have hd := Json.Quoted.ne_backslash_of_trail hd
      rw [bare, if_pos h, dropBackslashes_cons hc, dropBackslashes_cons hd, ih]
  | case4 c d r h ih => rw [bare, if_neg h, dropBackslashes_escapeUnit, ih]

/-! ### No closing quote -/

theorem isClosedBy_cons {q : Quote} {c : CodeUnit} (hunit : c ≠ q.unit)
    (hback : q = .double → c ≠ Json.Quoted.backslash) (s : Text) :
    isClosedBy q (c :: s) = isClosedBy q s := by
  cases s with
  | nil => simp [isClosedBy, hunit]
  | cons d s =>
      have hback' : ¬ (q = .double ∧ c = CodeUnit.ofBasic '\\') := fun h => hback h.1 h.2
      rw [isClosedBy, if_neg hback', if_neg hunit]

theorem isClosedBy_word {w : Text} (h : ∀ c ∈ w, c.isWord = true) (s : Text) :
    isClosedBy .double (w ++ s) = isClosedBy .double s := by
  induction w with
  | nil => rfl
  | cons c w ih =>
      have hc := h c (by simp)
      rw [List.cons_append, isClosedBy_cons (CodeUnit.ne_of_isWord hc (by decide))
        fun _ => CodeUnit.ne_of_isWord hc (by decide)]
      exact ih fun d hd => h d (by simp [hd])

theorem isClosedBy_escapeUnit (c : CodeUnit) (s : Text) :
    isClosedBy .double (escapeUnit c ++ s) = isClosedBy .double s := by
  have hskip : ∀ (d : CodeUnit) (s : Text),
      isClosedBy .double (Json.Quoted.backslash :: d :: s) = isClosedBy .double s :=
    fun d s => by rw [isClosedBy, if_pos ⟨rfl, rfl⟩]
  rcases escapeUnit_cases c with ⟨-, hquote, hback, heq⟩ | ⟨-, -, heq⟩ | ⟨-, d, w, hw, -, heq⟩
  · rw [heq]
    exact isClosedBy_cons hquote (fun _ => hback) s
  · rw [heq]
    exact hskip c s
  · rw [heq]
    exact (hskip d (w ++ s)).trans (isClosedBy_word (fun e he => hw e (by simp [he])) s)

theorem isClosedBy_escape (t : Text) : isClosedBy .double (escape t) = false := by
  fun_induction escape t with
  | case1 => rfl
  | case2 c => simpa [isClosedBy] using isClosedBy_escapeUnit c []
  | case3 c d r h ih =>
      obtain ⟨hc, hd⟩ := Bool.and_eq_true_iff.mp h
      have hne : ∀ e : CodeUnit, e.isLeadSurrogate = true ∨ e.isTrailSurrogate = true →
          e ≠ Quote.double.unit := by
        rintro e he rfl
        revert he
        decide
      rw [isClosedBy_cons (hne c (.inl hc)) fun _ => Json.Quoted.ne_backslash_of_lead hc,
        isClosedBy_cons (hne d (.inr hd)) fun _ => Json.Quoted.ne_backslash_of_trail hd, ih]
  | case4 c d r _ ih => rw [isClosedBy_escapeUnit, ih]

theorem isClosedBy_doubleQuotes (t : Text) :
    isClosedBy .single (Completion.doubleQuotes t) = false := by
  induction t with
  | nil => rfl
  | cons c t ih =>
      rw [Completion.doubleQuotes_cons]
      split_ifs with hc
      · have hskip : isClosedBy .single
            (CodeUnit.ofBasic '\'' :: CodeUnit.ofBasic '\'' :: Completion.doubleQuotes t) =
              isClosedBy .single (Completion.doubleQuotes t) := by
          rw [isClosedBy, if_neg (by decide), if_pos (by decide), if_pos ⟨rfl, rfl⟩]
        exact hskip.trans ih
      · have hcons := isClosedBy_cons (q := .single) hc nofun (Completion.doubleQuotes t)
        exact hcons.trans ih

/-! ### Reading back -/

/-- What a value inserted between quotes is read back as. -/
def readBack : Quote → Text → Text
  | .single, v => v
  | .double, v => bare v

theorem doubleQuotes_eq (t : Text) : Completion.doubleQuotes t = writeIn .single t := by
  unfold Completion.doubleQuotes Text.replaceUnit writeIn
  apply List.flatMap_congr
  intro c _
  split_ifs with hc
  · rw [hc]
    rfl
  · rfl

/-- The body of a quoted scalar reads back, and nothing closes the scalar. -/
theorem valueText_insertion {q : Quote} {token : Token} (h : token.quote = some q) (v : Text)
    (mode : Completion.InsertionMode) :
    valueText (some q) (Completion.insertion v token .yaml mode) = readBack q v ∧
      isClosedBy q (Completion.insertion v token .yaml mode) = false := by
  cases q with
  | single =>
      simp only [Completion.insertion, h]
      refine ⟨?_, isClosedBy_doubleQuotes v⟩
      rw [doubleQuotes_eq]
      exact valueText_write .single v
  | double =>
      simp only [Completion.insertion, h]
      exact ⟨dropBackslashes_escape v, isClosedBy_escape v⟩

theorem newline_notMem_insertion {q : Quote} {token : Token} (h : token.quote = some q) {v : Text}
    (hv : q = .single → CodeUnit.ofBasic '\n' ∉ v) (mode : Completion.InsertionMode) :
    CodeUnit.ofBasic '\n' ∉ Completion.insertion v token .yaml mode := by
  cases q with
  | single =>
      simp only [Completion.insertion, h]
      exact Completion.notMem_doubleQuotes (hv rfl) (by decide)
  | double =>
      simp only [Completion.insertion, h]
      intro hmem
      exact absurd (Json.Quoted.le_of_mem_escape hmem) (by decide)

/-- Behind an opening quote the token is what stands there. -/
theorem valueToken_quote (q : Quote) (body : Text) (offset : ℕ) :
    (valueToken ((" " : Text) ++ q.unit :: body) offset).1.text = valueText (some q) body ∧
      (valueToken ((" " : Text) ++ q.unit :: body) offset).1.quote = some q ∧
      (valueToken ((" " : Text) ++ q.unit :: body) offset).1.position =
        valuePosition (some q) body := by
  have hblanks : blanks ((" " : Text) ++ q.unit :: body) = 1 := by cases q <;> rfl
  have hflow : flowItem? (((" " : Text) ++ q.unit :: body).drop 1) = none := by cases q <;> rfl
  have hquote : (((" " : Text) ++ q.unit :: body).drop 1).head? >>= Quote.ofUnit? = some q := by
    cases q <;> rfl
  simp only [valueToken, hblanks, hflow, hquote]
  exact ⟨rfl, trivial, rfl⟩

/-- **Values inserted between quotes.**  Behind the colon of a key and an opening quote, a value
that is inserted for the quote is the token's text again, and the token is a value that goes on; in
double quotes only if it has no control character and no surrogate without its partner. -/
theorem resolve_inserted {t : Text} (h : EndsWithColon t) {q : Quote} {v : Text}
    (hv : q = .single → CodeUnit.ofBasic '\n' ∉ v) {token : Token} (htoken : token.quote = some q)
    (mode : Completion.InsertionMode) (rest : Text) :
    let typed := (" " : Text) ++ q.unit :: Completion.insertion v token .yaml mode
    let found := (resolve (t ++ typed ++ rest) (t.length + typed.length)).token
    found.quote = some q ∧ found.position = .value ∧ found.text = readBack q v ∧
      (found.text = v ↔ q = .double → Legible v) := by
  intro typed found
  have hline : CodeUnit.ofBasic '\n' ∉ typed := by
    have hbody := newline_notMem_insertion htoken hv mode
    have hunit : CodeUnit.ofBasic '\n' ≠ q.unit := by cases q <;> decide
    simp only [typed, List.mem_append, List.mem_cons, not_or]
    exact ⟨by decide, hunit, hbody⟩
  have hfound : found = (valueToken typed t.length).1 := (resolve_behindColon h rfl hline rest).2
  obtain ⟨htext, hclosed⟩ := valueText_insertion htoken v mode
  obtain ⟨hvalue, hquote, hposition⟩ :=
    valueToken_quote q (Completion.insertion v token .yaml mode) t.length
  have hread : found.text = readBack q v := by rw [hfound, ← htext]; exact hvalue
  refine ⟨by rw [hfound]; exact hquote, ?_, hread, ?_⟩
  · rw [hfound]
    exact hposition.trans (by rw [valuePosition, hclosed]; rfl)
  · rw [hread]
    cases q with
    | single => simp [readBack]
    | double => simp [readBack, Json.Quoted.bare_eq_iff]

theorem endsWithColon_k : EndsWithColon "k:" where
  key := by decide +kernel
  noText := by decide +kernel

/-- The token between quotes that nothing has been typed of. -/
def quotedToken (q : Quote) : Token := .plain [] 4 4 (some q) .value none

theorem resolve_inserted_apostrophe :
    EndsWithColon "k:" ∧ CodeUnit.ofBasic '\n' ∉ ("it's" : Text) ∧
      (quotedToken .single).quote = some .single ∧
      (resolve "k: 'it''s" 9).token.text = ("it's" : Text) :=
  have hline : CodeUnit.ofBasic '\n' ∉ ("it's" : Text) := by decide
  have htoken : (quotedToken .single).quote = some .single := rfl
  ⟨endsWithColon_k, hline, htoken,
    (resolve_inserted endsWithColon_k (fun _ => hline) htoken ⟨true, false⟩ []).2.2.1⟩

/-- A line break is written by a letter and comes back as this letter. -/
theorem resolve_inserted_break :
    ("k:" : Text) ++ ((" " : Text) ++ CodeUnit.ofBasic '"' ::
        Completion.insertion "\n" (quotedToken .double) .yaml ⟨true, false⟩) = "k: \"\\n" ∧
      (resolve "k: \"\\n" 6).token.text = "n" ∧ ("n" : Text) ≠ "\n" := by
  refine ⟨by decide, by decide +kernel, by decide⟩

end Yaml
end Cursor
end Scopewright
