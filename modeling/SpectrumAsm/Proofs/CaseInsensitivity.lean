/-
Programs do not depend on the case of letters.

The case may be changed everywhere but inside of quotes, and the output stays the same, with diagnostics of
the same codes for the same lines. Only their wording may show names as they were written.
-/
import SpectrumAsm.Assemble
import SpectrumAsm.Proofs.RecasedSources
import SpectrumAsm.Proofs.RewrittenWalks

namespace SpectrumAsm

open SourceLine Diagnostic

/-- Names are put into capital letters, and nothing else changes. -/
abbrev capitals (names : Array String) : Rewriting where
  case := Text.upcase
  upcase_case := Text.upcase_upcase
  exact := True
  free := False
  filled := False
  hung _ := False
  bad _ := False
  loud := False.elim
  names
  old := #[]

theorem Rewritten.folded (names : Array String) (lines : List SourceLine) :
    Rewritten (capitals names) lines (lines.map folded) := by
  induction lines with
  | nil => exact .nil
  | cons l lines ih => exact .cons ⟨⟨rfl, fun _ => rfl⟩, rfl, rfl, nofun⟩ nofun ih

theorem capitals_loud (names : Array String) : ¬(capitals names).Quiet := fun h => h ⟨.loopOverflow, "", 0⟩

theorem SymbolTable.Alike.exported_eq {K : Rewriting} {π : ScopeMap} {t u : SymbolTable} (h : t.Alike K π none u)
    (hexact : K.exact) : u.exported = t.exported := by
  have hentries : t.exported.entries = u.exported.entries := by
    rw [← List.forall₂_eq_eq_eq]
    refine List.Forall₂.imp ?_ h.exported
    rintro ⟨key, name, kind, value, pos⟩ ⟨key', name', kind', value', pos'⟩ ⟨rfl, rfl, rfl, rfl, hpos⟩
    cases hpos hexact
    rfl
  exact congrArg NameTable.mk hentries.symm

theorem assembled_folded (setup : Setup) (lines : List SourceLine) :
    let a := assembled setup lines
    let b := assembled setup (lines.map folded)
    (∀ source ds, ({ Output.ofAssembly source b with diagnostics := ds } : Output) =
        { Output.ofAssembly source a with diagnostics := ds }) ∧
      b.diagnostics.map gist = a.diagnostics.map gist := by
  obtain ⟨π, h⟩ := (Rewritten.folded setup.names lines).assembled rfl rfl (fun _ _ => id)
    (fun hK => absurd hK (capitals_loud _)) fun _ _ _ _ _ => False.elim
  generalize assembled setup lines = a at h
  generalize assembled setup (lines.map folded) = b at h
  refine ⟨fun source ds => ?_, ?_⟩
  · have hsymbols := h.symbols.exported_eq trivial
    simp [Output.ofAssembly, h.setup, h.segments, hsymbols, h.entry, h.exportEntry, h.placed trivial, h.model,
      h.trace, h.overrun]
  · have hgist : b.diagnostics.toList.map gist = a.diagnostics.toList.map gist :=
      forall₂_map_eq_iff.1 ((h.diagnostics (capitals_loud _) rfl).imp fun d d' hd => by
        obtain ⟨hfile, hline⟩ := hd.place trivial
        unfold gist
        rw [hd.fault.code, hfile, hline])
    rw [← Array.toList_inj, Array.toList_map, Array.toList_map, hgist]

/-- Changing the case of letters outside of quotes changes at most the wording of diagnostics. -/
theorem assemble_recased (host : Host) (name : String) (dir : Option String) {s t : String} (h : Recased s t) :
    let o := assemble host name dir s
    let o' := assemble host name dir t
    { o' with diagnostics := o.diagnostics } = o ∧
      o'.diagnostics.map gist = o.diagnostics.map gist := by
  obtain ⟨hlines, htree⟩ := SourceTree.read_recased host.options host.tree name dir h
  unfold assemble
  generalize SourceTree.read host.options host.tree name dir s = x at hlines htree
  generalize SourceTree.read host.options host.tree name dir t = y at hlines htree
  obtain ⟨lines, tree⟩ := x
  obtain ⟨lines', tree'⟩ := y
  dsimp only at hlines htree ⊢
  rw [htree.names, htree.dirs]
  -- both programs go along with the one in capital letters
  obtain ⟨hs, hs'⟩ := assembled_folded ⟨host.options, tree.names, tree.dirs, host.tree, host.clock⟩ lines
  obtain ⟨ht, ht'⟩ := assembled_folded ⟨host.options, tree.names, tree.dirs, host.tree, host.clock⟩ lines'
  rw [hlines] at ht ht'
  refine ⟨(ht tree' _).symm.trans (hs tree _), ?_⟩
  show (tree'.diagnostics ++ _).map _ = (tree.diagnostics ++ _).map _
  rw [Array.map_append, Array.map_append, htree.faults]
  exact congrArg _ (ht'.symm.trans hs')

/-- A program with a text in it, and with a name that is never defined. -/
def mixedCase : String := "Start: ld A,0fh\n .defm \"aB\"\n jp NZ,START\n call Missing"

def otherCase : String := "START: LD a,0FH\n .DEFM \"aB\"\n JP nz,start\n CALL mISSING"

/-- The text keeps its case, and the fault is that of the last line. -/
theorem assemble_recased_mixedCase :
    let o := assembleText {} mixedCase
    let o' := assembleText {} otherCase
    Recased mixedCase otherCase ∧ (o.bytes = [0x3E, 0x0F, 0x61, 0x42, 0xC2, 0x00, 0x80, 0xCD, 0x00, 0x00] ∧
        o.diagnostics.toList.map gist = [("Z0201", "<source>", 3)]) ∧
      { o' with diagnostics := o.diagnostics } = o ∧
      o'.diagnostics.map gist = o.diagnostics.map gist := by
  have h : Recased mixedCase otherCase := by decide +kernel
  exact ⟨h, by decide +kernel, assemble_recased {} "<source>" none h⟩

end SpectrumAsm
