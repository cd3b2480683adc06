import Skit.Basic
import Skit.Lib.Digits

/-!
# Offset paging

A page is a number and a count of rows. `Parse` refuses a page whose offset does not fit into an
`int`, `New` takes any number. An `int` has 64 bits.
-/
namespace Skit

structure Page where
  number : Int
  rows : Int
  deriving DecidableEq

namespace Page

def defaultPageNumber : Int := 1

def defaultRowsPerPage : Nat := 10

def maxRowsPerPage : Nat := 100

def maxInt : Int := 2 ^ 63 - 1

/-- `Offset`, with the arithmetic of machine integers. -/
def offset (p : Page) : Int := wrap64 (wrap64 (p.number - 1) * p.rows)

section Parse

-- the error of `strconv.Atoi` for a text that it does not read
variable (atoiError : String → Err)

/-- A number of the query, or its default where the text is empty. -/
def conversion (what : String) (default : Int) (text : String) : Except Err Int :=
  if text = "" then .ok default
  else
    match Lib.atoi text with
    | some n => .ok n
    | none => .error (.wrap (what ++ " conversion: " ++ (atoiError text).error) (atoiError text))

def parse (page rowsPerPage : String) : Except Err Page := do
  let number ← conversion atoiError "page" defaultPageNumber page
  let rows ← conversion atoiError "rows" defaultRowsPerPage rowsPerPage
  if number ≤ 0 then throw (.text "page value too small, must be larger than 0")
  else if rows ≤ 0 then throw (.text "rows value too small, must be larger than 0")
  else if maxRowsPerPage < rows then throw (.text "rows value too large, must be 100 or less")
  else if maxInt.tdiv rows < wrap64 (number - 1) then throw (.text "page value too large")
  else return ⟨number, rows⟩

end Parse

def new (number rowsPerPage : Int) : Page :=
  ⟨if number < 1 then defaultPageNumber else number,
    if rowsPerPage ≤ 0 then defaultRowsPerPage
    else if maxRowsPerPage < rowsPerPage then maxRowsPerPage
    else rowsPerPage⟩

end Page

namespace Rest

structure Pagination where
  totalPages : Int
  currentPage : Int
  limit : Int
  totalItems : Int
  deriving DecidableEq

def numPages (total rowsPerPage : Int) : Int :=
  if total ≤ 0 then 0
  else (wrap64 (wrap64 (total + rowsPerPage) - 1)).tdiv rowsPerPage

def newPagination (total : Int) (pg : Page) : Pagination :=
  let totalPages := numPages total pg.rows
  let pg := if totalPages = 0 then ⟨0, 0⟩ else pg
  ⟨totalPages, pg.number, pg.rows, total⟩

end Rest

namespace Page

open Rest

/-- An integer of the machine. -/
def Fits (n : Int) : Prop := -2 ^ 63 ≤ n ∧ n < 2 ^ 63

/-- The offset is what the pages before hold, and no integer wrapped around. -/
def Exact (p : Page) : Prop := 0 ≤ p.offset ∧ p.offset = (p.number - 1) * p.rows

/-- The row is one of those that the page selects. -/
def Has (p : Page) (row : Int) : Prop := p.offset ≤ row ∧ row < p.offset + p.rows

/-- The pages of the pagination are non-empty and have each row once. -/
structure Tiles (p : Page) (total : Int) : Prop where
  covered : ∀ row, 0 ≤ row → row < total →
    ∃! k, (1 ≤ k ∧ k ≤ (newPagination total p).totalPages) ∧ Has ⟨k, p.rows⟩ row
  filled : ∀ k, 1 ≤ k → k ≤ (newPagination total p).totalPages →
    ∃ row, (0 ≤ row ∧ row < total) ∧ Has ⟨k, p.rows⟩ row
  none_iff : (newPagination total p).totalPages = 0 ↔ total = 0

section Rows

variable {p : Page} {total k row rows : Int}

theorem fits_wrap64 (n : Int) : Fits (wrap64 n) := by
  unfold Fits wrap64
  omega

theorem exact_iff (hnumber : 1 ≤ p.number) (hfits : Fits p.number) (hrows : 0 ≤ p.rows) :
    Exact p ↔ (p.number - 1) * p.rows ≤ maxInt := by
  have hpred : wrap64 (p.number - 1) = p.number - 1 :=
    wrap64_of_range (by omega) (by have := hfits.2; omega)
  have hnonneg : 0 ≤ (p.number - 1) * p.rows := Int.mul_nonneg (by omega) hrows
  have hoffset : p.offset = wrap64 ((p.number - 1) * p.rows) := by rw [offset, hpred]
  constructor
  · intro h
    have hmax := (fits_wrap64 ((p.number - 1) * p.rows)).2
    rw [← hoffset, h.2] at hmax
    unfold maxInt
    omega
  · intro h
    unfold maxInt at h
    have hwrap := wrap64_of_range (d := (p.number - 1) * p.rows) (by omega) (by omega)
    rw [hwrap] at hoffset
    exact ⟨hoffset ▸ hnonneg, hoffset⟩

theorem numPages_eq (hrows : 0 < rows) (hmax : rows ≤ maxRowsPerPage)
    (htotal : 0 ≤ total) (hle : total ≤ 2 ^ 62) :
    numPages total rows = (total + rows - 1) / rows := by
  have hmax' : rows ≤ 100 := hmax
  unfold numPages
  split_ifs with h
  · obtain rfl : total = 0 := by omega
    rw [Int.ediv_eq_zero_of_lt (by omega) (by omega)]
  · rw [wrap64_of_range (d := total + rows) (by omega) (by omega),
      wrap64_of_range (by omega) (by omega), Int.tdiv_eq_ediv_of_nonneg (by omega)]

theorem has_iff (hrows : 0 < rows) (hk : 1 ≤ k) (hfits : (k - 1) * rows ≤ maxInt)
    (hk' : Fits k) : Has ⟨k, rows⟩ row ↔ row / rows = k - 1 := by
  have hexact := (exact_iff (p := ⟨k, rows⟩) hk hk' hrows.le).mpr hfits
  unfold Has
  rw [hexact.2]
  dsimp only
  rw [Int.ediv_eq_iff_of_pos hrows]

theorem le_numPages_iff (hrows : 0 < rows) (hmax : rows ≤ maxRowsPerPage)
    (htotal : 0 ≤ total) (hle : total ≤ 2 ^ 62) :
    k ≤ numPages total rows ↔ (k - 1) * rows < total := by
  rw [numPages_eq hrows hmax htotal hle, Int.le_ediv_iff_mul_le hrows, Int.sub_mul]
  omega

theorem tiles (hrows : 0 < p.rows) (hmax : p.rows ≤ maxRowsPerPage) (htotal : 0 ≤ total)
    (hle : total ≤ 2 ^ 62) : Tiles p total := by
  have hpage : ∀ {k}, k ≤ (newPagination total p).totalPages ↔ (k - 1) * p.rows < total :=
    le_numPages_iff hrows hmax htotal hle
  have hhas : ∀ {k row}, 1 ≤ k → (k - 1) * p.rows < total →
      (Has ⟨k, p.rows⟩ row ↔ row / p.rows = k - 1) := by
    intro k row hk hlt
    have hkrows : k - 1 ≤ (k - 1) * p.rows := le_mul_of_one_le_right (by omega) hrows
    refine has_iff hrows hk ?_ ⟨by omega, by omega⟩
    unfold maxInt
    omega
  refine ⟨fun row hrow hlt => ?_, fun k hk hle => ?_, ?_⟩
  · have hquot : 0 ≤ row / p.rows := Int.ediv_nonneg hrow hrows.le
    have hback : (row / p.rows + 1 - 1) * p.rows < total := by
      have hmul := Int.ediv_mul_le row hrows.ne'
      rw [Int.add_sub_cancel]
      omega
    refine ⟨row / p.rows + 1, ⟨⟨by omega, hpage.mpr hback⟩, ?_⟩, ?_⟩
    · exact (hhas (by omega) hback).mpr (by omega)
    · rintro k ⟨⟨hk, hkle⟩, hkrow⟩
      have hkquot := (hhas hk (hpage.mp hkle)).mp hkrow
      omega
  · have hlt := hpage.mp hle
    refine ⟨(k - 1) * p.rows, ⟨Int.mul_nonneg (by omega) hrows.le, hlt⟩, ?_⟩
    exact (hhas hk hlt).mpr (Int.mul_ediv_cancel _ hrows.ne')
  · have hone := hpage (k := 1)
    have hzero := hpage (k := 0)
    rw [Int.sub_self, Int.zero_mul] at hone
    constructor
    · intro hn
      rw [hn] at hone
      omega
    · intro ht
      have hnone : ¬ 1 ≤ (newPagination total p).totalPages := by
        rw [hone, ht]
        omega
      have hle' : 0 ≤ (newPagination total p).totalPages := by
        rw [hzero, Int.zero_sub, ht]
        have := Int.neg_neg_of_pos hrows
        omega
      omega

end Rows

section Made

theorem atoi_fits {text : String} {n : Int} (h : Lib.atoi text = some n) : Fits n := by
  unfold Lib.atoi at h
  split at h
  next negative digits _ =>
    dsimp only at h
    generalize Lib.value digits = m at h
    split_ifs at h with _ _ hm
    all_goals
      obtain rfl := Option.some.inj h
      exact ⟨by omega, by omega⟩

variable {atoiError : String → Err} {p : Page}

theorem conversion_fits {what text : String} {default n : Int} (hd : Fits default)
    (h : conversion atoiError what default text = .ok n) : Fits n := by
  unfold conversion at h
  split_ifs at h
  · cases h
    exact hd
  · split at h
    · next m hm =>
      cases h
      exact atoi_fits hm
    · cases h

theorem parse_spec {page rowsPerPage : String} (h : parse atoiError page rowsPerPage = .ok p) :
    1 ≤ p.number ∧ Fits p.number ∧ 0 < p.rows ∧ p.rows ≤ maxRowsPerPage ∧
      (p.number - 1) * p.rows ≤ maxInt := by
  unfold parse at h
  cases hnumber : conversion atoiError "page" defaultPageNumber page with
  | error err => simp [hnumber, bind, Except.bind] at h
  | ok number =>
    cases hrows : conversion atoiError "rows" defaultRowsPerPage rowsPerPage with
    | error err => simp [hnumber, hrows, bind, Except.bind] at h
    | ok rows =>
      have hfits := conversion_fits (by unfold Fits; decide) hnumber
      simp only [hnumber, hrows, bind, Except.bind] at h
      split_ifs at h with hsmall hfew hmany hlarge
      cases h
      dsimp only
      have hpred : wrap64 (number - 1) = number - 1 :=
        wrap64_of_range (by omega) (by have := hfits.2; omega)
      rw [hpred, Int.tdiv_eq_ediv_of_nonneg (by decide), Int.not_lt,
        Int.le_ediv_iff_mul_le (by omega)] at hlarge
      exact ⟨by omega, hfits, by omega, by omega, hlarge⟩

theorem new_spec {number : Int} (hn : Fits number) (rows : Int) :
    1 ≤ (new number rows).number ∧ Fits (new number rows).number ∧
      0 < (new number rows).rows ∧ (new number rows).rows ≤ maxRowsPerPage := by
  have hfits : Fits (new number rows).number := by
    unfold new
    dsimp only
    split_ifs
    · unfold Fits
      decide
    · exact hn
  have hbounds : 0 < (new number rows).rows ∧ (new number rows).rows ≤ maxRowsPerPage := by
    unfold new
    dsimp only
    split_ifs
    · decide
    · decide
    · omega
  refine ⟨?_, hfits, hbounds⟩
  unfold new
  dsimp only
  split_ifs
  · decide
  · omega

variable (atoiError) in
/-- The pages of `Parse` have exact offsets and tile every result. Those of `New` tile every
result, and have an exact offset unless it is too large. -/
theorem paging_tiles_iff :
    (∀ page rows p, parse atoiError page rows = .ok p →
      Exact p ∧ ∀ total, 0 ≤ total → total ≤ 2 ^ 62 → Tiles p total) ∧
    ∀ number rows, Fits number → Fits rows →
      ((Exact (new number rows) ∧
        ∀ total, 0 ≤ total → total ≤ 2 ^ 62 → Tiles (new number rows) total) ↔
      ((new number rows).number - 1) * (new number rows).rows ≤ maxInt) := by
  refine ⟨fun page rows p h => ?_, fun number rows hn _ => ?_⟩
  · obtain ⟨hone, hfits, hrows, hmax, hlarge⟩ := parse_spec h
    exact ⟨(exact_iff hone hfits hrows.le).mpr hlarge, fun _ => tiles hrows hmax⟩
  · obtain ⟨hone, hfits, hrows, hmax⟩ := new_spec hn rows
    rw [← exact_iff hone hfits hrows.le]
    exact and_iff_left fun _ => tiles hrows hmax

/-- The second and the third of the pages of 10 that 25 rows have. -/
theorem paging_tiles_second :
    (parse (fun _ => .text "invalid") "2" "" = .ok ⟨2, 10⟩ ∧ Exact ⟨2, 10⟩ ∧ Tiles ⟨2, 10⟩ 25) ∧
      Exact (new 3 0) ∧ Tiles (new 3 0) 25 ∧ (newPagination 25 (new 3 0)).totalPages = 3 := by
  have hparse : parse (fun _ => .text "invalid") "2" "" = .ok ⟨2, 10⟩ := by decide +kernel
  obtain ⟨hparsed, hnew⟩ := paging_tiles_iff fun _ => .text "invalid"
  obtain ⟨hexact, htiles⟩ := hparsed "2" "" ⟨2, 10⟩ hparse
  have hthree : Fits 3 ∧ Fits 0 := by
    unfold Fits
    decide
  obtain ⟨hexact', htiles'⟩ := (hnew 3 0 hthree.1 hthree.2).mpr (by decide)
  have htotal : (0 : Int) ≤ 25 ∧ (25 : Int) ≤ 2 ^ 62 := by decide
  exact ⟨⟨hparse, hexact, htiles 25 htotal.1 htotal.2⟩, hexact', htiles' 25 htotal.1 htotal.2,
    by decide⟩

/-- The offset of the last page that an `int` counts is negative. -/
theorem new_wraps : Fits maxInt ∧ Fits 2 ∧ (new maxInt 2).offset = -4 ∧ ¬ Exact (new maxInt 2) := by
  have hoffset : (new maxInt 2).offset = -4 := by decide +kernel
  refine ⟨by unfold Fits; decide, by unfold Fits; decide, hoffset, fun h => ?_⟩
  have hnonneg := h.1
  rw [hoffset] at hnonneg
  omega

end Made

end Page

end Skit
