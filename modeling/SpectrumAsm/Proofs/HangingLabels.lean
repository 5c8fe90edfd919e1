/-
Labels on lines of their own.

A label by itself waits for the next line, and that line is carried out as if the label were written on it.
The one exception is a block without an end: the line that opens it is not carried out, and then a label on it
is not defined, while a waiting label goes on waiting.
-/
import SpectrumAsm.Proofs.RewrittenWalks

namespace SpectrumAsm

/-- A label by itself and the line behind it, which has none and may take it. -/
structure HungLabel where
  label : SourceLine
  name : String
  line : SourceLine
  stmt : Stmt
  bare : label.stmt = none
  named : label.label = some name
  unlabelled : line.label = none
  means : line.stmt = some stmt
  takes : stmt.bindsLabel = true
  filled : stmt.hasParam = false

namespace HungLabel

variable (pair : HungLabel)

def apart : List SourceLine := [pair.label, pair.line]

def joined : SourceLine := { pair.line with label := pair.label.label }

/-- The report that the block which the line opens has no end. -/
def unclosed (names : Array String) (closer : String) : Diagnostic :=
  ⟨.missingEnd closer, SourceTree.fileName names pair.line.pos.file, pair.line.pos.line⟩

/-- The label is put on the line, and nothing else changes. -/
abbrev joining (names : Array String) : Rewriting where
  case := id
  upcase_case := upcase_id
  exact := False
  free := False
  filled := False
  hung := (· = pair.label)
  bad d := ∃ closer, d = pair.unclosed names closer
  loud := False.elim
  names
  old := #[]

theorem joining_loud (names : Array String) : ¬(pair.joining names).Quiet := fun h => by
  obtain ⟨_, hreport⟩ := h ⟨.loopOverflow, "", 0⟩
  cases hreport

variable {pair} {names : Array String} {before after lines : List SourceLine}

theorem rewritten (h : List.Forall₂ SourceLine.Same (before ++ pair.joined :: after) lines) :
    Rewritten (pair.joining names) (before ++ (pair.apart ++ after)) lines := by
  have hsame {ls ms : List SourceLine} (h : List.Forall₂ SourceLine.Same ls ms) :
      Rewritten (pair.joining names) ls ms :=
    .ofLines (h.imp fun _ _ h => h.line rfl id nofun) fun _ _ => False.elim
  obtain ⟨before', rest, rfl, hbefore, hrest⟩ := forall₂_append_left h
  cases hrest with
  | cons hm hafter =>
    refine (hsame hbefore).append (.label ?_ False.elim (hsame hafter))
    have hstmt := hm.stmt.trans pair.means
    exact ⟨rfl, id, pair.bare, ⟨pair.name, pair.named, hm.label.trans pair.named⟩, pair.unlabelled, hm.file,
      ⟨pair.stmt, pair.means, by rw [Stmt.renamed_id, hstmt], pair.takes, pair.filled⟩, fun closer => ⟨closer, rfl⟩⟩

end HungLabel

/-- A label on a line of its own may be written on the next line. In any program, take a label by itself that
is reached only while no other label waits, and a line right behind it without a label and without parameters
that may have one. With the label on that line the program has the same segments, exports the same symbols with
the same kinds and values, and reports faults of the same codes in the same order, unless the line is reported to
open a block that has no end. -/
theorem hanging_label_joined (pair : HungLabel) {setup : Setup} {before after lines : List SourceLine}
    (hlines : List.Forall₂ SourceLine.Same (before ++ pair.joined :: after) lines) {t : Tally} {c : Assembly}
    (hwalk : Walks (.lines (before ++ (pair.apart ++ after))) (.new setup) t c)
    (hfirst : ∀ a, (pair.label, a) ∈ t.visits → a.hanging = none)
    (hclosed : ∀ closer, pair.unclosed setup.names closer ∉
      (assembled setup (before ++ (pair.apart ++ after))).diagnostics) :
    let a := assembled setup (before ++ (pair.apart ++ after))
    let b := assembled setup lines
    b.segments = a.segments ∧ b.symbols.exportedValues = a.symbols.exportedValues ∧
      b.diagnostics.toList.map (·.fault.code) = a.diagnostics.toList.map (·.fault.code) := by
  obtain ⟨π, h⟩ := (pair.rewritten hlines).assembled (K := pair.joining setup.names) rfl rfl
    (fun x hx ⟨closer, hbad⟩ => hclosed closer (hbad ▸ hx)) (fun hK => absurd hK (pair.joining_loud _))
    fun u d hu visit hvisit hhung => by
      obtain ⟨rfl, -⟩ := hwalk.deterministic hu
      obtain ⟨l, a⟩ := visit
      obtain rfl : l = pair.label := hhung
      exact hfirst a hvisit
  refine ⟨h.segments, h.symbols.exportedValues, ?_⟩
  exact SourceLine.forall₂_map_eq_iff.1 ((h.diagnostics (pair.joining_loud _) rfl).imp fun _ _ hd => hd.fault.code)

def namedConstant : HungLabel where
  label := ⟨⟨0, 0⟩, some "Count", none, none⟩
  name := "Count"
  line := ⟨⟨0, 1⟩, none, some (.pragma (.equ (.int 5))), none⟩
  stmt := .pragma (.equ (.int 5))
  bare := rfl
  named := rfl
  unlabelled := rfl
  means := rfl
  takes := rfl
  filled := rfl

def constantByte : SourceLine := ⟨⟨0, 2⟩, none, some (.pragma (.defb [.symbol ⟨["COUNT"], false⟩])), none⟩

/-- The label gets the value of the constant and not an address. -/
theorem hanging_label_joined_equ :
    let a := assembled {} ([] ++ (namedConstant.apart ++ [constantByte]))
    let b := assembled {} [namedConstant.joined, constantByte]
    (a.segments = #[⟨0x8000, none, #[5]⟩] ∧ a.symbols.exportedValues = [("COUNT", .equ, some (.int 5))] ∧
        a.diagnostics = #[]) ∧
      b.segments = a.segments ∧ b.symbols.exportedValues = a.symbols.exportedValues ∧
        b.diagnostics.toList.map (·.fault.code) = a.diagnostics.toList.map (·.fault.code) := by
  have hquiet : (assembled {} ([] ++ (namedConstant.apart ++ [constantByte]))).diagnostics = #[] :=
    Array.isEmpty_iff.1 (by decide +kernel)
  have hvalues : (assembled {} ([] ++ (namedConstant.apart ++ [constantByte]))).symbols.exportedValues =
      [("COUNT", .equ, some (.int 5))] := by decide +kernel
  refine ⟨⟨by decide +kernel, hvalues, hquiet⟩, ?_⟩
  refine hanging_label_joined namedConstant (List.forall₂_same.2 fun _ _ => ⟨rfl, rfl, rfl⟩)
    (.call rfl (.done rfl) (.call rfl (.done rfl) (.call rfl (.done rfl) (.done rfl)))) (fun a ha => ?_)
    fun closer hin => absurd hin (Array.eq_empty_iff_forall_not_mem.1 hquiet _)
  cases ha with
  | head => rfl
  | tail _ ha =>
    cases ha with
    | tail _ ha =>
      cases ha with
      | tail _ ha => cases ha

def openLoop : HungLabel where
  label := ⟨⟨0, 0⟩, some "Start", none, none⟩
  name := "Start"
  line := ⟨⟨0, 1⟩, none, some (.statement (.loop (.int 3))), none⟩
  stmt := .statement (.loop (.int 3))
  bare := rfl
  named := rfl
  unlabelled := rfl
  means := rfl
  takes := rfl
  filled := rfl

/-- The label of a line that opens a block without an end is not defined, but a label in front of the line is. -/
theorem unclosed_block_drops_label :
    let a := assembled {} ([] ++ (openLoop.apart ++ []))
    let b := assembled {} [openLoop.joined]
    a.diagnostics.toList.map (·.fault.code) = ["Z0401"] ∧ b.diagnostics.toList.map (·.fault.code) = ["Z0401"] ∧
      a.symbols.exportedValues = [("START", .label, some (.int 0x8000))] ∧ b.symbols.exportedValues = [] := by
  decide +kernel

end SpectrumAsm
