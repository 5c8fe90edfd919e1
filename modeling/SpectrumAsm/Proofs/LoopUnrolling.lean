/-
Loops written out.

A counted loop around lines that only put bytes into the program makes of it what the lines make of it
when they are written as many times as the loop has passes.
-/
import SpectrumAsm.Proofs.RewrittenWalks

namespace SpectrumAsm

open List SourceLine

variable {free : Prop} {n : Nat} {body : List SourceLine}

/-- Loops are written out in programs without errors. -/
abbrev unrolling (free : Prop) (names : Array String) : Rewriting where
  case := id
  upcase_case := upcase_id
  exact := False
  free
  filled := False
  hung _ := False
  bad _ := True
  loud := False.elim
  names
  old := #[]

/-- A counted loop around lines that only put bytes into the program. -/
structure PlainLoop (free : Prop) where
  count : Int64
  start : SourceLine
  body : List SourceLine
  close : SourceLine
  positive : 0 < count.toInt
  opens : start.OpensLoop count
  closes : close.ClosesLoop
  plain : ∀ l ∈ body, l.Plain free
  nonempty : body ≠ []

namespace PlainLoop

def lines (loop : PlainLoop free) : List SourceLine := loop.start :: (loop.body ++ [loop.close])

def passes (loop : PlainLoop free) : List SourceLine := (replicate loop.count.toInt.toNat loop.body).flatten

end PlainLoop

theorem exists_copies {lines : List SourceLine}
    (h : Forall₂ Same (replicate n body).flatten lines) :
    ∃ copies : List (List SourceLine), lines = copies.flatten ∧ copies.length = n ∧
      ∀ copy ∈ copies, Forall₂ Same body copy := by
  induction n generalizing lines with
  | zero =>
    cases h
    exact ⟨[], rfl, rfl, nofun⟩
  | succ n ih =>
    rw [replicate_succ, flatten_cons] at h
    obtain ⟨copy, rest, rfl, hcopy, hrest⟩ := forall₂_append_left h
    obtain ⟨copies, rfl, rfl, hcopies⟩ := ih hrest
    exact ⟨copy :: copies, rfl, rfl, forall_mem_cons.2 ⟨hcopy, hcopies⟩⟩

theorem SourceLine.Same.unrolling {l m : SourceLine} (h : l.Same m) (names : Array String) :
    (unrolling free names).Line l m := h.line rfl id nofun

theorem PlainLoop.rewritten (loop : PlainLoop free) (names : Array String) {lines : List SourceLine}
    (h : Forall₂ Same loop.passes lines) : Rewritten (unrolling free names) loop.lines lines := by
  obtain ⟨copies, rfl, hlength, hcopies⟩ := exists_copies h
  have hloop := Rewritten.loop (K := unrolling free names) ⟨⟨fun _ => trivial, id, rfl⟩, loop.opens, loop.closes,
    loop.plain, loop.nonempty, loop.positive, hlength, hcopies⟩ .nil
  rwa [append_nil] at hloop

/-- A loop may be written out. In any program, a counted loop around operations and data without labels comes
to the same as its lines written once for every pass: if neither program has errors, both have the same
segments, and export the same symbols with the same values. No expression of the lines may use the number of
the pass. The lines may have parameters of a macro around the loop (`free`) only if no invocation of the
program passes an argument that uses the number of a pass. -/
theorem loop_written_out (loop : PlainLoop free) {setup : Setup} {before after written : List SourceLine}
    (hargs : ∀ l ∈ before ++ after, l.PassesSteady free)
    (hwritten : Forall₂ Same (before ++ (loop.passes ++ after)) written)
    (hquiet : (assembled setup (before ++ (loop.lines ++ after))).diagnostics = #[])
    (hquiet' : (assembled setup written).diagnostics = #[]) :
    (assembled setup written).segments = (assembled setup (before ++ (loop.lines ++ after))).segments ∧
      (assembled setup written).symbols.exportedValues =
        (assembled setup (before ++ (loop.lines ++ after))).symbols.exportedValues := by
  obtain ⟨hbefore, hafter⟩ := forall_mem_append.1 hargs
  obtain ⟨before', rest, rfl, hbefore', hrest⟩ := forall₂_append_left hwritten
  obtain ⟨lines, after', rfl, hlines, hafter'⟩ := forall₂_append_left hrest
  have hsame {ls ms : List SourceLine} (h : Forall₂ Same ls ms) :
      Forall₂ (unrolling free setup.names).Line ls ms := h.imp fun _ _ h => h.unrolling _
  have hrewritten := (Rewritten.ofLines (hsame hbefore') hbefore).append
    ((loop.rewritten setup.names hlines).append (.ofLines (hsame hafter') hafter))
  obtain ⟨π, hend⟩ := hrewritten.assembled rfl rfl
    (fun x hx => absurd hx (Array.eq_empty_iff_forall_not_mem.1 hquiet x)) (fun _ => hquiet')
    fun _ _ _ _ _ => False.elim
  exact ⟨hend.segments, hend.symbols.exportedValues⟩

def branchTwice : PlainLoop False where
  count := 2
  start := ⟨⟨0, 0⟩, none, some (.statement (.loop (.int 2))), none⟩
  body := [⟨⟨0, 1⟩, none, some (.op .djnz [.expr (.symbol ⟨["LATER"], false⟩)]), none⟩]
  close := ⟨⟨0, 2⟩, none, some (.statement .endLoop), none⟩
  positive := by decide
  opens := ⟨rfl, rfl⟩
  closes := ⟨rfl, rfl⟩
  plain l hl := by
    rw [mem_singleton.1 hl]
    refine ⟨rfl, _, rfl, .inl ⟨_, _, rfl⟩, fun o ho => ?_, fun e he => ?_⟩
    · rw [mem_singleton.1 ho]
      rintro e ⟨⟩
      trivial
    · rw [mem_singleton.1 he]
      trivial
  nonempty := nofun

def withLabel (lines : List SourceLine) : List SourceLine :=
  [⟨⟨0, 0⟩, none, some (.op .nop []), none⟩] ++ (lines ++ [⟨⟨0, 3⟩, some "Later", some (.op .nop []), none⟩])

/-- Each branch has a distance of its own, and both are known only at the end. -/
theorem loop_written_out_branches : (assembled {} (withLabel branchTwice.lines)).diagnostics = #[] ∧
      (assembled {} (withLabel branchTwice.passes)).diagnostics = #[] ∧
      (assembled {} (withLabel branchTwice.lines)).segments = #[⟨0x8000, none, #[0, 0x10, 2, 0x10, 0, 0]⟩] ∧
      (assembled {} (withLabel branchTwice.passes)).segments = #[⟨0x8000, none, #[0, 0x10, 2, 0x10, 0, 0]⟩] ∧
      (assembled {} (withLabel branchTwice.passes)).symbols.exportedValues =
        [("LATER", .label, some (.int 0x8005))] := by
  have hquiet : (assembled {} (withLabel branchTwice.lines)).diagnostics = #[] :=
    Array.isEmpty_iff.1 (by decide +kernel)
  have hquiet' : (assembled {} (withLabel branchTwice.passes)).diagnostics = #[] :=
    Array.isEmpty_iff.1 (by decide +kernel)
  have hbytes : (assembled {} (withLabel branchTwice.lines)).segments =
      #[⟨0x8000, none, #[0, 0x10, 2, 0x10, 0, 0]⟩] := by decide +kernel
  have hsymbols : (assembled {} (withLabel branchTwice.lines)).symbols.exportedValues =
      [("LATER", .label, some (.int 0x8005))] := by decide +kernel
  have hargs (l : SourceLine) : l.PassesSteady False := False.elim
  have hsame : Forall₂ Same (withLabel branchTwice.passes) (withLabel branchTwice.passes) :=
    forall₂_same.2 fun _ _ => ⟨rfl, rfl, rfl⟩
  obtain ⟨hsegments, hvalues⟩ := loop_written_out branchTwice (fun l _ => hargs l) hsame hquiet hquiet'
  exact ⟨hquiet, hquiet', hbytes, hsegments.trans hbytes, hvalues.trans hsymbols⟩

/-- A loop in a macro around a byte that is passed to the macro. -/
def passedTwice : PlainLoop True where
  count := 2
  start := ⟨⟨0, 1⟩, none, some (.statement (.loop (.int 2))), none⟩
  body := [⟨⟨0, 2⟩, none, some (.pragma (.defb [.param "p"])), none⟩]
  close := ⟨⟨0, 3⟩, none, some (.statement .endLoop), none⟩
  positive := by decide
  opens := ⟨rfl, rfl⟩
  closes := ⟨rfl, rfl⟩
  plain l hl := by
    rw [mem_singleton.1 hl]
    refine ⟨rfl, _, rfl, .inr ⟨_, rfl, rfl⟩, nofun, fun e he => ?_⟩
    rw [mem_singleton.1 he]
    trivial
  nonempty := nofun

/-- A macro with the lines in it, invoked in each pass of a loop with the number of the pass. -/
def invokedWithCounter (lines : List SourceLine) : List SourceLine :=
  [⟨⟨0, 0⟩, some "M", some (.statement (.macroDef ["p"])), none⟩] ++ (lines ++
    [⟨⟨0, 4⟩, none, some (.statement .endMacro), none⟩, ⟨⟨0, 5⟩, none, some (.statement (.loop (.int 3))), none⟩,
      ⟨⟨0, 6⟩, none, some (.invoke "M" [.expr .counter]), none⟩,
      ⟨⟨0, 7⟩, none, some (.statement .endLoop), none⟩])

/-- An argument that uses the number of a pass takes the number of the innermost one, which is another if the loop
in the macro is written out. -/
theorem loop_written_out_counter_passed : (assembled {} (invokedWithCounter passedTwice.lines)).diagnostics = #[] ∧
      (assembled {} (invokedWithCounter passedTwice.passes)).diagnostics = #[] ∧
      (assembled {} (invokedWithCounter passedTwice.lines)).segments = #[⟨0x8000, none, #[1, 2, 1, 2, 1, 2]⟩] ∧
      (assembled {} (invokedWithCounter passedTwice.passes)).segments = #[⟨0x8000, none, #[1, 1, 2, 2, 3, 3]⟩] := by
  refine ⟨Array.isEmpty_iff.1 ?_, Array.isEmpty_iff.1 ?_, ?_, ?_⟩ <;> decide +kernel

end SpectrumAsm
