import Scopewright.Proofs.Block.Row

/-! # Block documents

A block document (`Block.Tree`) is a mapping or a sequence, nested to any depth and with any
widths of indentation.  What is nested under a key stands deeper than the key, on the lines below;
what is nested in an item begins on the line of its dash (`Tree.rows`).  An empty block stands for
a missing value.

Every line of a block stands at the column of the block or deeper (`Tree.beyond_of_mem_rows`), and
the dashes at the column of a sequence are as many as its items (`Tree.length_filter_rows`). -/

namespace Scopewright
namespace Block

/-- What a block is. -/
inductive Kind where
  | mapping
  | sequence
deriving DecidableEq

/-- A block as it is built up from its first member. -/
inductive Tree : Kind → Type where
  | nil {m : Kind} : Tree m
  | pair (k : Key) (gap : ℕ) (w : Word) (rest : Tree .mapping) : Tree .mapping
  | nest {m : Kind} (k : Key) (step : ℕ) (inner : Tree m) (rest : Tree .mapping) :
      Tree .mapping
  | word (gap : ℕ) (w : Word) (rest : Tree .sequence) : Tree .sequence
  | item {m : Kind} (gap : ℕ) (inner : Tree m) (rest : Tree .sequence) : Tree .sequence

/-- The line stands at a column of a block or deeper, with only a dash at that of a sequence. -/
def Row.Beyond (m : Kind) (col : ℕ) (r : Row) : Prop :=
  ∀ e ∈ r.entries, col ≤ e.col ∧ (m = .sequence → e.col = col → e = .dash col)

/-- A dash that opens an item stands at the column. -/
def Row.hasDashAt (col : ℕ) (r : Row) : Bool := r.entries.any (·.isDashAt col)

/-- Puts dashes before the first of some lines; the dashes begin at a column. -/
def onto (col : ℕ) (gaps : List ℕ) : List Row → List Row
  | [] => []
  | r :: rs => ⟨col, gaps ++ r.gaps, r.body⟩ :: rs

/-- Puts a dash before some lines, or on a line of its own if there are none. -/
def underDash (col gap : ℕ) : List Row → List Row
  | [] => [⟨col, [gap], .nothing⟩]
  | r :: rs => onto col [gap] (r :: rs)

namespace Tree

variable {m : Kind}

/-- The number of members. -/
def length : {m : Kind} → Tree m → ℕ
  | _, nil => 0
  | _, pair _ _ _ rest => rest.length + 1
  | _, nest _ _ _ rest => rest.length + 1
  | _, word _ _ rest => rest.length + 1
  | _, item _ _ rest => rest.length + 1

/-- The members of one block before those of another. -/
def append : {m : Kind} → Tree m → Tree m → Tree m
  | _, nil, b => b
  | _, pair k gap w rest, b => pair k gap w (rest.append b)
  | _, nest k step inner rest, b => nest k step inner (rest.append b)
  | _, word gap w rest, b => word gap w (rest.append b)
  | _, item gap inner rest, b => item gap inner (rest.append b)

/-- The lines of a block that stands at a column. -/
def rows : {m : Kind} → Tree m → ℕ → List Row
  | _, nil, _ => []
  | _, pair k gap w rest, col => ⟨col, [], .pair k gap w⟩ :: rest.rows col
  | _, nest k step inner rest, col =>
      ⟨col, [], .head k⟩ :: (inner.rows (col + step + 1) ++ rest.rows col)
  | _, word gap w rest, col => ⟨col, [gap], .word w⟩ :: rest.rows col
  | _, item gap inner rest, col =>
      underDash col gap (inner.rows (col + gap + 2)) ++ rest.rows col

theorem append_assoc (a : Tree m) : ∀ b c : Tree m,
    (a.append b).append c = a.append (b.append c) := by
  induction a with
  | nil => exact fun _ _ => rfl
  | pair k gap w rest ih => exact fun b c => congrArg (pair k gap w) (ih b c)
  | nest k step inner rest _ ih => exact fun b c => congrArg (nest k step inner) (ih b c)
  | word gap w rest ih => exact fun b c => congrArg (word gap w) (ih b c)
  | item gap inner rest _ ih => exact fun b c => congrArg (item gap inner) (ih b c)

theorem rows_append (b : Tree m) : ∀ (b' : Tree m) (col : ℕ),
    (b.append b').rows col = b.rows col ++ b'.rows col := by
  induction b with
  | nil => exact fun _ _ => rfl
  | pair k gap w rest ih =>
      intro b' col
      simp only [append, rows, ih, List.cons_append]
  | nest k step inner rest _ ih =>
      intro b' col
      simp only [append, rows, ih, List.cons_append, List.append_assoc]
  | word gap w rest ih =>
      intro b' col
      simp only [append, rows, ih, List.cons_append]
  | item gap inner rest _ ih =>
      intro b' col
      simp only [append, rows, ih, List.append_assoc]

theorem rows_eq_nil_iff (b : Tree m) (col : ℕ) : b.rows col = [] ↔ b.length = 0 := by
  cases b with
  | nil => exact ⟨fun _ => rfl, fun _ => rfl⟩
  | pair k gap w rest => simp [rows, length]
  | nest k step inner rest => simp [rows, length]
  | word gap w rest => simp [rows, length]
  | item gap inner rest =>
      simp only [rows, length]
      cases inner.rows (col + gap + 2) with
      | nil => simp [underDash]
      | cons r rs => simp [underDash, onto]

/-- A block begins at its column. -/
theorem indent_of_rows {b : Tree m} {col : ℕ} {r : Row} {rs : List Row}
    (h : b.rows col = r :: rs) : r.indent = col := by
  cases b with
  | nil => cases h
  | pair k gap w rest =>
      obtain ⟨rfl, _⟩ := List.cons.inj h
      rfl
  | nest k step inner rest =>
      obtain ⟨rfl, _⟩ := List.cons.inj h
      rfl
  | word gap w rest =>
      obtain ⟨rfl, _⟩ := List.cons.inj h
      rfl
  | item gap inner rest =>
      simp only [rows] at h
      cases hi : inner.rows (col + gap + 2) with
      | nil =>
          rw [hi] at h
          obtain ⟨rfl, _⟩ := List.cons.inj h
          rfl
      | cons r' rs' =>
          rw [hi] at h
          obtain ⟨rfl, _⟩ := List.cons.inj h
          rfl

end Tree

/-! ### Columns -/

theorem dashCols_append (gs hs : List ℕ) : ∀ col : ℕ,
    dashCols col (gs ++ hs) = dashCols col gs ++ dashCols (endCol col gs) hs := by
  induction gs with
  | nil => exact fun _ => rfl
  | cons g gs ih =>
      intro col
      rw [List.cons_append, dashCols, ih]
      rfl

theorem length_dashCols (gs : List ℕ) : ∀ col : ℕ, (dashCols col gs).length = gs.length := by
  induction gs with
  | nil => exact fun _ => rfl
  | cons g gs ih => exact fun col => congrArg (· + 1) (ih (col + g + 2))

theorem endCol_append (gs hs : List ℕ) : ∀ col : ℕ,
    endCol col (gs ++ hs) = endCol (endCol col gs) hs := by
  induction gs with
  | nil => exact fun _ => rfl
  | cons g gs ih => exact fun col => ih (col + g + 2)

theorem lt_endCol_of_mem (gs : List ℕ) : ∀ {col c : ℕ}, c ∈ dashCols col gs →
    col ≤ c ∧ c < endCol col gs := by
  induction gs with
  | nil => exact fun h => by cases h
  | cons g gs ih =>
      intro col c h
      have hle : ∀ (hs : List ℕ) (d : ℕ), d ≤ endCol d hs := by
        intro hs
        induction hs with
        | nil => exact fun d => Nat.le_refl d
        | cons h hs ih =>
            intro d
            have := ih (d + h + 2)
            rw [endCol]
            omega
      rw [dashCols, List.mem_cons] at h
      rcases h with rfl | h
      · have := hle gs (c + g + 2)
        rw [endCol]
        omega
      · have := ih h
        rw [endCol]
        omega

/-- Dashes before a line come before its entries. -/
theorem Row.entries_onto {col : ℕ} {gs : List ℕ} {r : Row} (h : endCol col gs = r.indent) :
    Row.entries ⟨col, gs ++ r.gaps, r.body⟩ = (dashCols col gs).map .dash ++ r.entries := by
  simp only [Row.entries, dashCols_append, endCol_append, h, List.map_append, List.append_assoc]

theorem length_onto (col : ℕ) (gaps : List ℕ) (rs : List Row) :
    (onto col gaps rs).length = rs.length := by
  cases rs with
  | nil => rfl
  | cons r rs => rfl

theorem onto_append {xs : List Row} (hx : xs ≠ []) (d : ℕ) (gs : List ℕ) (ys : List Row) :
    onto d gs (xs ++ ys) = onto d gs xs ++ ys := by
  obtain ⟨x, xs, rfl⟩ := List.exists_cons_of_ne_nil hx
  rfl

theorem onto_onto (d col : ℕ) (gs gs' : List ℕ) (rs : List Row) :
    onto d gs (onto col gs' rs) = onto d (gs ++ gs') rs := by
  cases rs with
  | nil => rfl
  | cons r rs => simp only [onto, List.append_assoc]

/-- Dashes put before some lines do not take entries from the last of them. -/
theorem exists_onto_concat {d : ℕ} {gs : List ℕ} {r : Row} (hd : endCol d gs = r.indent)
    (rs : List Row) :
    ∃ rs' r' es, onto d gs (rs ++ [r]) = rs' ++ [r'] ∧ r'.entries = es ++ r.entries := by
  cases rs with
  | nil => exact ⟨[], _, _, rfl, Row.entries_onto hd⟩
  | cons x xs => exact ⟨_ :: xs, r, [], rfl, rfl⟩

theorem Row.Beyond.mono {m m' : Kind} {col col' : ℕ} {r : Row} (h : r.Beyond m' col')
    (hlt : col < col') : r.Beyond m col := by
  intro e he
  have hcol := (h e he).1
  exact ⟨by omega, fun _ heq => by omega⟩

/-- An item stands beyond the column of its dash. -/
theorem Row.beyond_onto {m' : Kind} {col gap : ℕ} {r : Row} (hi : r.indent = col + gap + 2)
    (h : r.Beyond m' (col + gap + 2)) :
    Row.Beyond .sequence col ⟨col, [gap] ++ r.gaps, r.body⟩ := by
  intro e he
  have hcol : endCol col [gap] = r.indent := hi.symm
  rw [Row.entries_onto hcol] at he
  rcases List.mem_append.mp he with he | he
  · obtain rfl := List.mem_singleton.mp he
    exact ⟨Nat.le_refl col, fun _ _ => rfl⟩
  · have hcol := (h e he).1
    exact ⟨by omega, fun _ heq => by omega⟩

theorem Row.hasDashAt_cons (col gap : ℕ) (gaps : List ℕ) (body : Body) :
    Row.hasDashAt col ⟨col, gap :: gaps, body⟩ = true := by
  simp [Row.hasDashAt, Row.entries, dashCols, Yaml.LineEntry.isDashAt]

theorem Row.hasDashAt_eq_false {m : Kind} {col col' : ℕ} {r : Row} (h : r.Beyond m col')
    (hlt : col < col') : r.hasDashAt col = false := by
  refine List.any_eq_false.mpr fun e he => ?_
  have hcol := (h e he).1
  cases e with
  | dash d =>
      have hd : col' ≤ d := hcol
      simp only [Yaml.LineEntry.isDashAt, decide_eq_true_eq]
      omega
  | key d name hasValue blockScalar => exact Bool.false_ne_true

namespace Tree

variable {m : Kind}

theorem beyond_of_mem_rows (b : Tree m) : ∀ {col : ℕ} {r : Row}, r ∈ b.rows col →
    r.Beyond m col := by
  induction b with
  | nil => exact fun h => by cases h
  | pair k gap w rest ih =>
      intro col r hr
      rcases List.mem_cons.mp hr with rfl | hr
      · intro e he
        obtain rfl := List.mem_singleton.mp he
        exact ⟨Nat.le_refl col, fun h => by cases h⟩
      · exact ih hr
  | nest k step inner rest ihInner ih =>
      intro col r hr
      rcases List.mem_cons.mp hr with rfl | hr
      · intro e he
        obtain rfl := List.mem_singleton.mp he
        exact ⟨Nat.le_refl col, fun h => by cases h⟩
      · rcases List.mem_append.mp hr with hr | hr
        · exact (ihInner hr).mono (by omega)
        · exact ih hr
  | word gap w rest ih =>
      intro col r hr
      rcases List.mem_cons.mp hr with rfl | hr
      · intro e he
        obtain rfl := List.mem_singleton.mp he
        exact ⟨Nat.le_refl col, fun _ _ => rfl⟩
      · exact ih hr
  | item gap inner rest ihInner ih =>
      intro col r hr
      rcases List.mem_append.mp hr with hr | hr
      · cases hi : inner.rows (col + gap + 2) with
        | nil =>
            rw [hi] at hr
            obtain rfl := List.mem_singleton.mp hr
            intro e he
            obtain rfl := List.mem_singleton.mp he
            exact ⟨Nat.le_refl col, fun _ _ => rfl⟩
        | cons r' rs =>
            rw [hi] at hr
            rcases List.mem_cons.mp hr with rfl | hr
            · exact Row.beyond_onto (indent_of_rows hi)
                (ihInner (by rw [hi]; exact List.mem_cons_self))
            · exact (ihInner (by rw [hi]; exact List.mem_cons_of_mem _ hr)).mono (by omega)
      · exact ih hr

/-- A sequence begins with a dash. -/
theorem hasDashAt_of_rows {b : Tree m} (hm : m = .sequence) {col : ℕ} {r : Row} {rs : List Row}
    (h : b.rows col = r :: rs) : r.hasDashAt col = true := by
  cases b with
  | nil => cases h
  | pair k gap w rest => cases hm
  | nest k step inner rest => cases hm
  | word gap w rest =>
      obtain ⟨rfl, _⟩ := List.cons.inj h
      exact Row.hasDashAt_cons col gap [] _
  | item gap inner rest =>
      simp only [rows] at h
      cases hi : inner.rows (col + gap + 2) with
      | nil =>
          rw [hi] at h
          obtain ⟨rfl, _⟩ := List.cons.inj h
          exact Row.hasDashAt_cons col gap [] _
      | cons r' rs' =>
          rw [hi] at h
          obtain ⟨rfl, _⟩ := List.cons.inj h
          exact Row.hasDashAt_cons col gap r'.gaps _

/-- Each item of a sequence has one dash at the column of the sequence. -/
theorem length_filter_rows (b : Tree m) (hm : m = .sequence) (col : ℕ) :
    ((b.rows col).filter (Row.hasDashAt col)).length = b.length := by
  induction b with
  | nil => rfl
  | pair k gap w rest ih => cases hm
  | nest k step inner rest _ ih => cases hm
  | word gap w rest ih =>
      rw [rows, List.filter_cons_of_pos (Row.hasDashAt_cons col gap [] _), List.length_cons, ih rfl]
      rfl
  | item gap inner rest _ ih =>
      have hcount : ((underDash col gap (inner.rows (col + gap + 2))).filter
          (Row.hasDashAt col)).length = 1 := by
        cases hi : inner.rows (col + gap + 2) with
        | nil =>
            rw [underDash, List.filter_cons_of_pos (Row.hasDashAt_cons col gap [] _)]
            rfl
        | cons r rs =>
            have hrs : rs.filter (Row.hasDashAt col) = [] := by
              refine List.filter_eq_nil_iff.mpr fun r' hr' => ?_
              have hmem : r' ∈ inner.rows (col + gap + 2) := by
                rw [hi]
                exact List.mem_cons_of_mem _ hr'
              rw [Row.hasDashAt_eq_false (beyond_of_mem_rows inner hmem) (by omega)]
              exact Bool.false_ne_true
            have hd : Row.hasDashAt col ⟨col, [gap] ++ r.gaps, r.body⟩ = true :=
              Row.hasDashAt_cons col gap r.gaps _
            rw [underDash, onto, List.filter_cons_of_pos hd, hrs]
            rfl
      rw [rows, List.filter_append, List.length_append, hcount, ih rfl, length, Nat.add_comm]

end Tree

end Block
end Scopewright
