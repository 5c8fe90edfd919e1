/-
What operands in the passes of a counting loop are bound to behind the loop.

An operand that waits when the loop ends keeps the scope of its pass, with its number and names, and the
address of its line. The variable of the loop lives in the scope around all passes: operands that wait for a name
declared behind the loop see its last value in every pass.
-/
import SpectrumAsm.Proofs.Scoping

namespace SpectrumAsm

open SymbolTable

variable {a b walked : Assembly} {p : Patch} {after : List Event}

/-! ## The variable of a loop -/

theorem forLoop_variable {walk : LineWalker} (hwalk : ∀ lines, (walk lines).Keeps Follows) (var : String)
    (first last : Expr) (step : Option Expr) (body : List SourceLine) (close : SourceLine)
    (hrun : ((forLoop var first last step (walk body) close).run a).2 = b) (hb : b.Orderly)
    (hp : p ∈ b.pending) (hinside : b.symbols.encloses p.scope a.symbols.nextScope = true) :
    ∃ v, ((b.symbols.symbolsAt (.scope a.symbols.nextScope)).get? (Text.upcase var)).bind (·.value) = some v := by
  have hloop := lt_of_mem_chain hb.nested.parents (hb.scopes p hp) _ (List.contains_iff_mem.1 hinside)
  rcases forLoop_ended hwalk var first last step body close a with hcalm | ⟨a', c, hasked, hc, hcounts, hended⟩
  · -- no scope was opened, so none can be around the operand
    rw [hrun] at hcalm
    rw [hcalm.tame.table.nextScope] at hloop
    exact absurd hloop (Nat.lt_irrefl _)
  · rw [hrun] at hended
    subst hended
    have hnext : a'.symbols.nextScope = a.symbols.nextScope := (Calm.ofAsked hasked).tame.table.nextScope
    have htop : c.symbols.top? = some a.symbols.nextScope := hnext ▸ hc.top?
    have hsame : c.symbols.encloses p.scope a.symbols.nextScope = true := by
      refine (congrArg (·.contains a.symbols.nextScope) (chain_eq fun j _ => ?_)).trans hinside
      rw [parent?_frame, parent?_frame, ← Array.getElem?_map, ← Array.getElem?_map]
      exact congrArg (·[j]?.bind _) (c.symbols.frame_closeScope _).symm
    have hwaits : p ∈ c.pending := hp
    obtain ⟨-, -, s, hs, -, hvalue⟩ := hcounts
    rw [symbolsAt, scopes_closeScope_awaited hwaits htop hsame]
    rw [hnext, symbolsAt] at hs
    rw [hs]
    exact Option.isSome_iff_exists.1 hvalue

/-! ## Operands in loops -/

theorem History.encoded_behind {low : Nat} (hafter : History b after walked) (hb : Arises b)
    (horder : b.Orderly) (ho : walked.resolveAll.overrun = false)
    (hd : walked.resolveAll.diagnostics = #[]) (hactive : ∀ id ∈ b.symbols.active, id < low)
    (hp : p ∈ b.pending) (hpos : 0 < p.kind.span) (hx : p.Spared (rewritten after)) :
    ∃ s bytes, p.unresolved s = [] ∧ p.ComesTo s (.ok bytes) ∧
      (∀ j < p.kind.span, walked.resolveAll.byteAt p.segment (p.extent.start + j) = bytes[j]?) ∧
      (s.symbols.env p.place).counter = (b.symbols.env p.place).counter ∧ ∀ ref v, ref.rooted = false →
        (b.symbols.lookupWithin low p.scope ref.joined).bind (·.value) = some v →
        (s.symbols.env p.place).symbol ref = some v := by
  have hwalked := (resolveAll_course walked).overrun ho
  obtain ⟨c, s, bytes, _, _, hc, hrest, hfills, hknown, hcomes, hbytes⟩ :=
    (hafter.fate hb horder ho hp hpos hx).encoded hafter hd
  have hsealed : Sealed low b.symbols.nextScope b.symbols s.symbols :=
    ((Sealed.refl hactive).history hc hb horder).fills hfills
  have hscope := horder.scopes p hp
  refine ⟨s, bytes, hknown, hcomes, hbytes, hsealed.loopCounter? horder.nested.parents hscope, fun ref v hr hv => ?_⟩
  have hlater := (hsealed.within horder.nested.parents hscope ref.joined).value hv
  obtain ⟨found, hfound, hvalue⟩ := Option.bind_eq_some_iff.1 hlater
  show (s.symbols.lookup ref p.scope p.module).bind (·.value) = some v
  rw [lookup_of_within hr hfound p.module]
  exact hvalue

/-- How operands in counting loops are bound, on the way from `start` to the end of the walk at `walked`. -/
structure BindsLoops (start walked : Assembly) : Prop where
  /-- A line with an operation or data is reported, or its operands are laid one behind the other. -/
  code {line : SourceLine} {s : Stmt} {x : Step Unit} (walk : Option LineWalker) (a : Assembly) :
    line.stmt = some s → s.code? = some x →
    ∃ c, History a [] c ∧ ((∃ fault, ((walkSingle walk line).run a).2 = c.report fault) ∨
      s.AllLaid c ((walkSingle walk line).run a).2)
  /-- A loop opens scopes with numbers from the next one on, and ends and closes no others. -/
  loop {before : List Event} {a : Assembly} (var : String) (first last : Expr) (step : Option Expr)
    (outer : Option Nat) (n : Nat) (body : List SourceLine) (close : SourceLine) :
    History start before a →
    ∃ es, History a es ((forLoop var first last step (walkLines (outer.map walkDepth) n body) close).run a).2 ∧
      Inner a.symbols.nextScope es
  /-- An operand that has to wait goes on with the address and the number of the pass of its line, and in
  the scopes its line is in. -/
  line {before after : List Event} {a b : Assembly} {cell : Cell} {kind : PatchKind} {e : Expr} {k i : Nat} :
    History start before a → a.Lays cell k i b → History b after walked →
    cell.hole? = some (kind, e) → e.Waits (a.symbols.env a.place) →
    ∃ p ∈ b.pending, p.expr = e ∧ p.place = a.place ∧ p.extent = ⟨k, i + kind.lead, i + kind.lead + kind.span⟩ ∧
      ∀ {between rest : List Event} {c : Assembly}, History b between c → History c rest walked →
        (c.symbols.env p.place).address = (a.symbols.env a.place).address ∧
        (c.symbols.env p.place).counter = (a.symbols.env a.place).counter ∧
        c.symbols.chain p.scope = a.symbols.chain a.symbols.top?
  /-- As long as one of its names has no value, it goes on waiting. -/
  waits {before between after : List Event} {a b : Assembly} {p : Patch} :
    History start before a → p ∈ a.pending → 0 < p.kind.span →
    History a between b → History b after walked → p.Spared (rewritten between) →
    (∀ {es fs : List Event} {c : Assembly}, History a es c → History c fs b → p.unresolved c ≠ []) →
    p ∈ b.pending
  /-- An operand of a loop that still waits behind it is encoded with its address, the number of its pass and
  the names of its pass, and with the value the variable of the loop had when the loop ended, unless another
  symbol of that name hides it. -/
  behind {before after : List Event} {a : Assembly} {p : Patch} (var : String) (first last : Expr)
    (step : Option Expr) (outer : Option Nat) (n : Nat) (body : List SourceLine) (close : SourceLine) :
    History start before a →
    let loop := a.symbols.nextScope
    let b := ((forLoop var first last step (walkLines (outer.map walkDepth) n body) close).run a).2
    History b after walked → p ∈ b.pending → 0 < p.kind.span →
    b.symbols.encloses p.scope loop = true → p.Spared (rewritten after) →
    ∃ s bytes, p.unresolved s = [] ∧ p.ComesTo s (.ok bytes) ∧
      (∀ j < p.kind.span, walked.resolveAll.byteAt p.segment (p.extent.start + j) = bytes[j]?) ∧
      (s.symbols.env p.place).address = (b.symbols.env p.place).address ∧
      (s.symbols.env p.place).counter = (b.symbols.env p.place).counter ∧
      (∀ ref v, ref.rooted = false → (b.symbols.lookupWithin loop p.scope ref.joined).bind (·.value) = some v →
        (s.symbols.env p.place).symbol ref = some v) ∧
      ∃ v, ((b.symbols.symbolsAt (.scope loop)).get? (Text.upcase var)).bind (·.value) = some v ∧
        ∀ ref, ref.rooted = false → ref.joined = Text.upcase var →
          b.symbols.lookupWithin (loop + 1) p.scope ref.joined = none →
          (s.symbols.env p.place).symbol ref = some v

/-- In every program without faults the operands of a loop that wait for names declared behind it are
bound to the one value the variable of the loop has in the end, and otherwise to what their own pass says. -/
theorem loop_variable_bound_behind (setup : Setup) (lines : List SourceLine)
    (hd : ((assembleLines lines).run (.new setup)).2.diagnostics = #[])
    (ho : ((assembleLines lines).run (.new setup)).2.overrun = false) :
    let walked := ((walkProgram lines).run (.new setup)).2.flushLabel
    ((assembleLines lines).run (.new setup)).2 = walked.resolveAll ∧
      (∃ es, History (.new setup) es walked) ∧ BindsLoops (.new setup) walked := by
  intro walked
  have hend : ((assembleLines lines).run (.new setup)).2 = walked.resolveAll := rfl
  rw [hend] at hd ho
  have hwalked : walked.overrun = false := (resolveAll_course walked).overrun ho
  have hstart := Arises.new setup
  refine ⟨hend, walked_history setup lines, ?_⟩
  have horder {before : List Event} {a : Assembly} (hbefore : History (.new setup) before a) : a.Orderly :=
    hbefore.orderly hstart (.new setup)
  have hloop (var : String) (first last : Expr) (step : Option Expr) (outer : Option Nat) (n : Nat)
      (body : List SourceLine) (close : SourceLine) :=
    forLoop_follows (walkLines_depth_follows outer n) var first last step body close
  constructor
  case code =>
    intro line s x walk a hs hx
    exact walkSingle_laid hs hx walk a
  case loop =>
    intro before a var first last step outer n body close hbefore
    exact (hloop var first last step outer n body close a).history (hbefore.arises hstart).reachable
  case line =>
    intro before after a b cell kind e k i hbefore hlays hafter hcell hwaits
    have ha := hbefore.arises hstart
    have hordered := horder hbefore
    obtain ⟨⟨_, hline⟩, ⟨hknown, -⟩ | ⟨-, p, hp, hexpr, hplace, -, hextent⟩⟩ :=
      hlays.cases hcell ha (hafter.overrun hwalked)
    · exact absurd hwaits hknown
    refine ⟨p, hp, hexpr, hplace, hextent, fun {between rest c} hbetween hrest => ?_⟩
    have hactive := hordered.nested.active
    have hsealed := (Sealed.refl hactive).history (hline.trans hbetween) ha hordered
    have htop : ∀ id, a.symbols.top? = some id → id < a.symbols.nextScope :=
      fun id hid => hactive id (List.mem_of_mem_head? hid)
    have hscope : p.scope = a.symbols.top? := congrArg Place.scope hplace
    rw [hplace, hscope]
    exact ⟨rfl, hsealed.loopCounter? hordered.nested.parents htop, hsealed.chain hordered.nested.parents htop⟩
  case waits =>
    intro before between after a b p hbefore hp hpos hbetween hafter hx hblank
    exact hbetween.waits (hbefore.arises hstart) (horder hbefore) (hafter.overrun hwalked) hp hpos hx hblank
  case behind =>
    intro before after a p var first last step outer n body close hbefore loop b hafter hp hpos hinside hx
    have ha := hbefore.arises hstart
    have hfollows : Follows a b := hloop var first last step outer n body close a
    obtain ⟨_, hhistory, -⟩ := hfollows.history ha.reachable
    have hordered := horder (hbefore.trans hhistory)
    -- the scopes of the loop are closed again
    have hactive : ∀ id ∈ b.symbols.active, id < loop := by
      rw [hfollows.level.active]
      exact ha.reachable.wellNested.active
    obtain ⟨s, bytes, hknown, hcomes, hbytes, hcounter, hsymbol⟩ :=
      hafter.encoded_behind (hhistory.arises ha) hordered ho hd hactive hp hpos hx
    obtain ⟨v, hv⟩ := forLoop_variable (walkLines_depth_follows outer n) var first last step body close rfl
      hordered hp hinside
    refine ⟨s, bytes, hknown, hcomes, hbytes, rfl, hcounter, hsymbol, v, hv, fun ref hr hname hfree => ?_⟩
    refine hsymbol ref v hr ?_
    rw [lookupWithin_succ hordered.nested.parents hinside, hfree, Option.none_or, hname]
    exact hv

/-! ## A name declared behind a loop -/

def summingBody : List SourceLine := [⟨⟨0, 1⟩, none, some (.pragma (.defb
    [.binary .add (.symbol ⟨["I"], false⟩) (.symbol ⟨["LATER"], false⟩)])), none⟩]

def summingLoop : SourceLine := ⟨⟨0, 0⟩, none, some (.statement (.forEach "i" (.int 1) (.int 3) none)), none⟩

def summingEnd : SourceLine := ⟨⟨0, 2⟩, none, some (.statement .endFor), none⟩

def laterName : SourceLine := ⟨⟨0, 3⟩, some "later", some (.pragma (.equ (.int 0))), none⟩

def summingLines : List SourceLine := summingLoop :: (summingBody ++ [summingEnd, laterName])

/-- All three operands wait behind the loop, and all of them get the value 3 for `I`: the bytes are 3, 3, 3.
-/
theorem loop_variable_bound_behind_three :
    let walked := ((walkProgram summingLines).run (.new {})).2.flushLabel
    walked.resolveAll.diagnostics = #[] ∧ walked.resolveAll.segments.map (·.bytes) = #[#[3, 3, 3]] ∧
    ∃ a b, History (.new {}) [] a ∧ History b [] walked ∧
      b = ((forLoop "i" (.int 1) (.int 3) none (walkLines ((some 31).map walkDepth) 3 summingBody)
        summingEnd).run a).2 ∧
      b.pending.map (fun p => (p.offset, p.origin, b.symbols.loopCounter? p.scope)) =
        #[(0, 0x8000, some 1), (1, 0x8001, some 2), (2, 0x8002, some 3)] ∧
      ∀ p ∈ b.pending, ∃ s bytes, p.ComesTo s (.ok bytes) ∧
        walked.resolveAll.byteAt p.segment p.extent.start = bytes[0]? ∧
        (s.symbols.env p.place).counter = b.symbols.loopCounter? p.scope ∧
        (s.symbols.env p.place).symbol ⟨["I"], false⟩ = some (.int 3) := by
  have hd : ((assembleLines summingLines).run (.new {})).2.diagnostics = #[] := Array.isEmpty_iff.1 (by decide +kernel)
  obtain ⟨hend, -, hbinds⟩ := loop_variable_bound_behind {} summingLines hd (by decide +kernel)
  refine ⟨hend ▸ hd, by decide +kernel, ?_⟩
  -- The states on the way are given names, so that nothing but `decide` computes them.
  obtain ⟨a, ha⟩ : ∃ x, x = { (Assembly.new {}).moveTo summingLoop.pos with opened := none }.bindLineLabel
      summingLoop := ⟨_, rfl⟩
  let expand := (some 31).map walkDepth
  obtain ⟨b, hb⟩ : ∃ x, x = ((forLoop "i" (.int 1) (.int 3) none (walkLines expand 3 summingBody)
      summingEnd).run a).2 := ⟨_, rfl⟩
  have hbefore : History (.new {}) [] a := ha ▸ bound_history (.new {}) summingLoop
  have hafter : History b [] ((walkProgram summingLines).run (.new {})).2.flushLabel := by
    have hgoes : b.isInterrupted = false := by
      rw [hb, ha]
      decide +kernel
    have hwalk : (walkProgram summingLines).run (.new {}) = (walkLines expand 3 [laterName]).run b := by
      rw [hb, ha, walkProgram_run (show ({} : Setup).options.maxMacroDepth = 31 + 1 from rfl)]
      rfl
    have hplain : laterName.IsPlain := .inl ⟨_, rfl⟩
    rw [hwalk, walkLines_single hgoes rfl]
    exact ((Calm.note (.moveTo b laterName.pos) rfl).history.trans (walkSingle_plain expand hplain _).2).trans
      (flushLabel_calm _).history
  have hwaiting : b.pending.map (fun p => (p.offset, p.origin, b.symbols.loopCounter? p.scope)) =
      #[(0, 0x8000, some 1), (1, 0x8001, some 2), (2, 0x8002, some 3)] := by
    rw [hb, ha]
    decide +kernel
  have hinside : b.pending.all (fun p => p.kind.span == 1 && b.symbols.encloses p.scope a.symbols.nextScope &&
      (b.symbols.lookupWithin (a.symbols.nextScope + 1) p.scope "I").isNone) = true := by
    rw [hb, ha]
    decide +kernel
  have hlast : ((b.symbols.symbolsAt (.scope a.symbols.nextScope)).get? (Text.upcase "i")).bind (·.value) =
      some (.int 3) := by
    rw [hb, ha]
    decide +kernel
  refine ⟨a, b, hbefore, hafter, hb, hwaiting, fun p hp => ?_⟩
  have hp' := Array.all_eq_true'.1 hinside p hp
  simp only [Bool.and_eq_true, beq_iff_eq, Option.isNone_iff_eq_none] at hp'
  obtain ⟨⟨hspan, hin⟩, hfree⟩ := hp'
  subst hb
  obtain ⟨s, bytes, -, hcomes, hbytes, -, hcounter, -, v, hv, hvar⟩ :=
    hbinds.behind "i" (.int 1) (.int 3) none (some 31) 3 summingBody summingEnd hbefore hafter hp
      (by omega) hin fun _ hx => by cases hx
  rw [hlast] at hv
  cases hv
  exact ⟨s, bytes, hcomes, hbytes 0 (by omega), hcounter, hvar ⟨["I"], false⟩ rfl (by decide +kernel) hfree⟩

end SpectrumAsm
