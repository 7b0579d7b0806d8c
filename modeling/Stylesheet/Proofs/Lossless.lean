import Mathlib.Tactic.ByContra
import Stylesheet.Proofs.Repairs
import Stylesheet.Proofs.RoundTrip
import Stylesheet.Proofs.Tolerance

/-!
# Repairs that lose no text

Tolerant assembly folds what it cannot use into the layout of the next node, into a value or into
the text in front of a colon, where it is printed again. Only four repairs change the text: a
block or a comment is closed, a closing brace is left over, or a semicolon is missed.
`extends_add` says that any other step of tolerant assembly adds the tokens of its statement to
what is written, as strict assembly does, and `print_of_benign` that a document with no such
repair is printed as its source.
-/

namespace Stylesheet

/-! ## Healed tokens -/

namespace Lexer

/-- A token is what its kind promises, or it is a healed construct that reaches to the end of the
text. -/
theorem scanNext_healed {l after : Lexer} {token : Token}
    (h : l.scanNext = (.ok (some token), after)) :
    token.healed = false ∧ token.IsFormed ∨
      token.healed = true ∧ (∃ construct : OpenConstruct, token.kind = construct.tokenKind) ∧
        after.rest = [] := by
  cases hhealed : token.healed with
  | false => exact .inl ⟨rfl, scanNext_isFormed rfl (scanNext_failing h hhealed)⟩
  | true =>
      unfold scanNext at h
      split at h
      · cases h
      · next c text hrest =>
          split at h
          · cases h
            cases hhealed
          · split at h
            · cases h
              exact .inr ⟨rfl, ⟨_, rfl⟩, by simp [hrest]⟩
            · cases h

/-- Only the last token of a reading can be healed. -/
theorem Reads.healed_last {l after : Lexer} {tokens : List Token} (h : l.Reads tokens after) :
    ∀ t ∈ tokens, t.healed = false ∧ t.IsFormed ∨
      t.healed = true ∧ (∃ construct : OpenConstruct, t.kind = construct.tokenKind) ∧
        tokens.getLast? = some t := by
  induction h with
  | nil => exact List.forall_mem_nil _
  | cons l next after token tokens hscan hreads ih =>
      intro t ht
      rcases List.mem_cons.mp ht with rfl | ht
      · refine (scanNext_healed hscan).imp_right fun ⟨hhealed, hkind, hrest⟩ ↦
          ⟨hhealed, hkind, ?_⟩
        cases hreads with
        | nil => rfl
        | cons _ _ _ _ _ hmore _ =>
            have hmore := (scanNext_rest hmore)
            rw [hrest] at hmore
            exact absurd (List.append_eq_nil_iff.mp hmore.1.symm).1 hmore.2
      · refine (ih t ht).imp_right fun ⟨hhealed, hkind, hlast⟩ ↦ ⟨hhealed, hkind, ?_⟩
        rw [List.getLast?_cons, hlast]
        rfl

end Lexer

namespace Statement

/-- Without a comment that is healed the statements of a run are written as its tokens. -/
theorem written_group {stop steps : Nat} {tokens : List Token}
    (hhealed : ∀ t ∈ tokens, t.kind = .comment → t.healed = false)
    (hsteps : tokens.length < steps) :
    (group stop none steps tokens).flatMap written = Token.spelling tokens := by
  induction steps generalizing tokens with
  | zero => exact absurd hsteps (Nat.not_lt_zero _)
  | succ steps ih =>
      cases tokens with
      | nil => rfl
      | cons t rest =>
          have htokens := tokens_first stop t rest
          have hlength := length_first_le stop none t rest
          have hfirst : (first stop none t rest).1.written =
              Token.spelling (first stop none t rest).1.tokens := by
            have hcut := first_cut stop t rest
            generalize first stop none t rest = cut at hcut
            obtain ⟨statement, behind⟩ := cut
            cases hcut with
            | comment hkind =>
                simp [written, tokens, Token.commentText, hhealed t List.mem_cons_self hkind]
            | _ => rfl
          rw [group, List.flatMap_cons, hfirst, ih _
            (Nat.lt_of_le_of_lt hlength (Nat.lt_of_succ_lt_succ hsteps)), ← Token.spelling_append,
            htokens]
          exact fun u hu ↦ hhealed u (by rw [← htokens]; exact List.mem_append_right _ hu)

end Statement

/-! ## Benign repairs -/

/-- `d.changesText` says that a repair of this kind leaves text out or adds some. -/
def Damage.changesText : Damage → Bool
  | .unclosedBlock | .unexpectedClose | .missedSemicolon | .unclosedComment => true
  | _ => false

namespace Assembly

variable {a b : Assembly} {t : Token} {rest behind : List Token} {statement : Statement}

/-- `a.IsBenign` says that no repair that was made changes the text. -/
def IsBenign (a : Assembly) : Prop := ∀ r ∈ a.recoveries, r.damage.changesText = false

theorem IsBenign.of_steps (h : b.IsBenign) (hsteps : a.Steps b) : a.IsBenign :=
  fun r hr ↦ h r (hsteps.repairs_kept.subset hr)

theorem IsBenign.not_recorded (h : b.IsBenign) {damage : Damage}
    (hdamage : damage.changesText = true) : ¬∃ r ∈ b.recoveries, r.damage = damage := by
  rintro ⟨r, hr, rfl⟩
  rw [h r hr] at hdamage
  cases hdamage

/-! ## Statements -/

/-- A block is closed as under strict assembly, if there is one to close. -/
theorem quiet_closeBlock (h : a.closeBlock t = .ok b) (hbenign : b.IsBenign) :
    a.quiet.closeBlock t = .ok b.quiet := by
  unfold closeBlock at h ⊢
  cases henclosing : a.enclosing with
  | cons outer enclosing =>
      have hquiet : a.quiet.enclosing = outer :: enclosing := henclosing
      simp only [henclosing] at h
      simp only [hquiet]
      cases h
      rfl
  | nil =>
      simp only [henclosing] at h
      obtain ⟨c, hc, h⟩ := bind_eq_ok.mp h
      cases h
      exact absurd (recorded_of_report hc) (hbenign.not_recorded rfl)

theorem quiet_freeSemicolon (a : Assembly) (t : Token) :
    (a.freeSemicolon t).quiet = a.quiet.freeSemicolon t := by
  unfold freeSemicolon
  cases hearlier : a.current.earlier with
  | nil =>
      have hquiet : a.quiet.current.earlier = [] := hearlier
      simp only [hquiet]
      rfl
  | cons tree earlier =>
      have hquiet : a.quiet.current.earlier = tree :: earlier := hearlier
      simp only [hquiet]
      split <;> rfl

theorem quiet_atRuleBody {word : Token} {params : List Token} {ending : AtRuleEnd}
    (h : a.atRuleBody word params ending = .ok b) (hbenign : b.IsBenign) :
    a.quiet.atRuleBody word params ending = .ok b.quiet := by
  cases ending with
  | semicolon t =>
      cases h
      rfl
  | block t =>
      cases h
      rfl
  | close t => exact quiet_closeBlock h hbenign
  | input =>
      unfold atRuleBody at h ⊢
      dsimp only at h ⊢
      split at h <;> next hempty =>
        cases h
        simp only [hempty]
        rfl
  | failure e => cases h

/-- A run of tokens of a declaration extends what has been read, unless it is cut in two. -/
theorem extends_declaration_quiet {tokens : List Token} {custom : Bool} {terminator : Nat}
    (hmode : a.mode = .tolerant) (h : a.quiet.IsWhole) (hsettled : a.quiet.IsSettled)
    (hformed : ∀ u ∈ tokens, u.kind ≠ .comment → u.IsFormed)
    (hends : tokens.getLast?.any (·.is .semicolon) = true ∨ EndsBlock behind) (hne : tokens ≠ [])
    (hb : a.declaration tokens custom terminator = .ok b) (hbenign : b.IsBenign) :
    a.quiet.Extends (Token.spelling tokens) behind b.quiet := by
  obtain ⟨u, more, rfl⟩ := List.exists_cons_of_ne_nil hne
  cases declares_of_declare hb with
  | stray hstrays hb =>
      rcases hstrays with rfl | ⟨hstrict, -⟩
      · rw [quiet_stray hb]
        exact h.extends_wait hsettled _ behind
      · rw [hmode] at hstrict
        cases hstrict
  | single hparts hb =>
      rw [hb]
      exact h.extends_declaration hsettled custom hformed hends hparts
  | cut _ _ _ _ _ hrecorded => exact absurd hrecorded (hbenign.not_recorded rfl)

/-- Each statement that tolerant assembly takes with benign repairs extends what has been read by
what is written for it. -/
theorem extends_add {stop : Nat} (hmode : a.mode = .tolerant) (h : a.quiet.IsWhole)
    (hsettled : a.quiet.IsSettled ∨ EndsBlock (t :: rest)) (hsound : ∀ u ∈ t :: rest, u.IsSound)
    (hcut : Statement.Cut stop t rest statement behind) (hb : a.add statement = .ok b)
    (hbenign : b.IsBenign) : a.quiet.Extends statement.written behind b.quiet := by
  have hsound : ∀ u ∈ statement.tokens, u.IsSound := fun u hu ↦
    hsound u (by rw [← hcut.tokens_append]; exact List.mem_append_left _ hu)
  have htokens : ∀ u ∈ statement.tokens, u.kind ≠ .comment → u.IsFormed :=
    fun u hu ↦ (hsound u hu).other
  have hother (hstarts : Statement.StartsOther t) : a.quiet.IsSettled :=
    settled_of_not_trivia hsettled hstarts.2.2.1 hstarts.isTrivia_eq_false
  cases statement with
  | space t =>
      cases hb
      exact extends_takes h hsettled hsound hcut (.space t)
  | semicolon t =>
      cases hb
      rw [quiet_freeSemicolon]
      exact extends_takes h hsettled hsound hcut (.semicolon t)
  | close t =>
      obtain ⟨outer, enclosing, hopen, hclosed⟩ :=
        closeBlock_eq_ok rfl (quiet_closeBlock hb hbenign)
      rw [hclosed]
      exact extends_takes h hsettled hsound hcut (.close t hopen)
  | comment t =>
      cases hb
      exact extends_takes h hsettled hsound hcut (.comment t)
  | atRule word params ending =>
      obtain ⟨c, hquiet, -, hb⟩ := quiet_atRule hb
      have hbody := quiet_atRuleBody hb hbenign
      rw [hquiet] at hbody
      have hfits := Statement.Params.fits_gather none [] rest
      cases hcut with
      | atRule hkind hgather =>
          rw [hgather] at hfits
          have hsettled := settled_of_not_trivia hsettled (by simp [hkind])
            (by simp [Token.isTrivia, hkind, TokenKind.isTrivia])
          exact h.extends_atRule hsettled hkind htokens hfits hbody
  | rule head brace =>
      cases hb
      exact extends_takes h hsettled hsound hcut (.rule head brace)
  | declaration tokens custom terminator opened =>
      obtain ⟨c, hc, hb⟩ := bind_eq_ok.mp hb
      obtain ⟨hstarts, more, htokens'⟩ := hcut.declaration_cons
      have hquiet := quiet_reportOpened hc
      have hcmode := (steps_reportOpened hc).mode_eq.trans hmode
      have hsettled := hother hstarts
      rw [← hquiet] at h hsettled ⊢
      exact extends_declaration_quiet hcmode h hsettled htokens hcut.endsBlock
        (by rw [htokens']; exact List.cons_ne_nil t more) hb hbenign
  | stray tokens opened =>
      obtain ⟨c, hc, hb⟩ := bind_eq_ok.mp hb
      have hstarts : Statement.StartsOther t := by
        cases hcut <;> assumption
      have hquiet : b.quiet = (a.wait (Token.spelling tokens)).quiet :=
        (quiet_stray hb).trans (congrArg (·.wait (Token.spelling tokens)) (quiet_reportOpened hc))
      rw [hquiet]
      exact h.extends_wait (hother hstarts) _ behind
  | failure e => cases hb

/-- A run of statements that tolerant assembly takes with benign repairs extends what has been
read by what is written for them. -/
theorem extends_group {stop steps : Nat} {tokens : List Token} (hmode : a.mode = .tolerant)
    (h : a.quiet.IsWhole) (hsettled : a.quiet.IsSettled ∨ EndsBlock tokens)
    (hsound : ∀ u ∈ tokens, u.IsSound) (hsteps : tokens.length < steps)
    (hb : (Statement.group stop none steps tokens).foldlM Assembly.add a = .ok b)
    (hbenign : b.IsBenign) :
    b.quiet.IsWhole ∧ b.quiet.written =
      a.quiet.written ++ (Statement.group stop none steps tokens).flatMap Statement.written := by
  induction steps generalizing a tokens with
  | zero => exact absurd hsteps (Nat.not_lt_zero _)
  | succ steps ih =>
      cases tokens with
      | nil =>
          cases hb
          exact ⟨h, (List.append_nil _).symm⟩
      | cons t rest =>
          simp only [Statement.group, List.foldlM_cons] at hb
          obtain ⟨c, hc, hb⟩ := bind_eq_ok.mp hb
          have hcut := Statement.first_cut stop t rest
          have htokens := Statement.tokens_first stop t rest
          have hlength := Statement.length_first_le stop none t rest
          have hextends := extends_add hmode h hsettled hsound hcut hc
            (hbenign.of_steps (steps_foldlM_add hb))
          obtain ⟨hwhole, hwritten⟩ := ih ((steps_add hc).mode_eq.trans hmode) hextends.whole
            hextends.settled
            (fun u hu ↦ hsound u (by rw [← htokens]; exact List.mem_append_right _ hu))
            (Nat.lt_of_le_of_lt hlength (Nat.lt_of_succ_lt_succ hsteps)) hb
          refine ⟨hwhole, ?_⟩
          rw [hwritten, hextends.written, Statement.group, List.flatMap_cons, List.append_assoc]

/-- The statements of a text that tolerant assembly takes with benign repairs are written one
behind the other. -/
theorem written_of_ofRun {source : Source}
    (hb : (Statement.ofRun source.size (Token.run source.text .heal)).foldlM Assembly.add
      (start source .tolerant) = .ok b)
    (hbenign : b.IsBenign) :
    b.quiet.IsWhole ∧ b.quiet.written =
      (Statement.ofRun source.size (Token.run source.text .heal)).flatMap Statement.written := by
  have hnone : (Token.run source.text .heal).failure = none :=
    failure_eq_none_of_group (Nat.lt_succ_self _) hb
  obtain ⟨hreads, -⟩ := Lexer.reads_of_runFor (Token.run source.text .heal)
    (Lexer.isPlain_ofText source.text .heal .stock) (Nat.le_add_left _ _) rfl hnone
  have hstart : (start source .tolerant).quiet.IsWhole := isWhole_start source
  unfold Statement.ofRun at hb ⊢
  rw [hnone] at hb ⊢
  exact extends_group rfl hstart (.inl rfl) (fun u hu ↦ hreads.isSound hu) (Nat.lt_succ_self _) hb
    hbenign

/-- Behind benign repairs only the root is open at the end of the text. -/
theorem quiet_finish {run : TokenRun} (h : a.finish run = .ok b) (hbenign : b.IsBenign) :
    a.enclosing = [] ∧ b.quiet = a.quiet.ended := by
  obtain ⟨c, d, hquiet, hd, hb, hrecorded, -⟩ := finish_quiet h
  have hopen : a.enclosing = [] := by
    by_contra hne
    exact hbenign.not_recorded rfl (hrecorded hne)
  have hclosed : c.enclosing = [] := (congrArg (·.enclosing) hquiet).trans hopen
  rw [hclosed] at hd
  cases hd
  have hended : c.quiet.ended = a.quiet.ended := by rw [hquiet]
  refine ⟨hopen, hb.trans (Eq.trans ?_ hended)⟩
  simp only [ended, quiet, hclosed]

/-- Behind benign repairs no comment is healed, so that statements are written as their tokens. -/
theorem written_of_finish {text : Text} (hnone : (Token.run text .heal).failure = none)
    (h : a.finish (Token.run text .heal) = .ok b) (hbenign : b.IsBenign) (stop : Nat) :
    (Statement.ofRun stop (Token.run text .heal)).flatMap Statement.written = text := by
  obtain ⟨hreads, -⟩ := Lexer.reads_of_runFor (Token.run text .heal)
    (Lexer.isPlain_ofText text .heal .stock) (Nat.le_add_left _ _) rfl hnone
  have hhealed : ∀ t ∈ (Token.run text .heal).tokens, t.kind = .comment → t.healed = false := by
    intro t ht hkind
    rcases hreads.healed_last t ht with ⟨hhealed, -⟩ | ⟨hhealed, -, hlast⟩
    · exact hhealed
    · obtain ⟨_, _, -, -, -, -, hrecorded⟩ := finish_quiet h
      have hrecorded := hrecorded t hlast hhealed
      rw [hkind] at hrecorded
      exact absurd hrecorded (hbenign.not_recorded rfl)
  rw [Statement.ofRun, hnone, Statement.written_group hhealed (Nat.lt_succ_self _),
    Token.spelling_run hnone]

/-- Tolerant assembly with benign repairs ends like a strict one that has written the whole
text. -/
theorem written_of_benign {source : Source} (h : assemble source .tolerant = .ok b)
    (hbenign : b.IsBenign) :
    ∃ a : Assembly, a.IsWhole ∧ a.enclosing = [] ∧ b.quiet = a.ended ∧
      a.written = source.text := by
  unfold assemble at h
  obtain ⟨a, hfold, hfinish⟩ := bind_eq_ok.mp h
  have hnone : (Token.run source.text .heal).failure = none :=
    failure_eq_none_of_group (Nat.lt_succ_self _) hfold
  obtain ⟨hwhole, hwritten⟩ := written_of_ofRun hfold (hbenign.of_steps (steps_finish hfinish))
  obtain ⟨hopen, hquiet⟩ := quiet_finish hfinish hbenign
  refine ⟨a.quiet, hwhole, hopen, hquiet, ?_⟩
  rw [hwritten]
  exact written_of_finish hnone hfinish hbenign source.size

end Assembly

/-! ## Damaged documents -/

namespace Forest

/-- Damage is not part of how nodes are spelled. -/
theorem spell_map_undamaged (semicolon : Bool) (f : Forest Node) :
    (f.map Node.undamaged).spell semicolon = f.spell semicolon := by
  induction f generalizing semicolon with
  | nil => rfl
  | cons n below rest ihBelow ihRest =>
      have hends : (rest.map Node.undamaged).endsBefore = rest.endsBefore := by
        rw [endsBefore, tops_map, List.any_map]
        rfl
      have hspell (flag : Bool) (body : Text) : n.undamaged.spell flag body =
          n.spell flag body := rfl
      have hsemicolon : n.undamaged.raws.semicolon = n.raws.semicolon := rfl
      rw [map, spell, spell, hends, ihRest, hspell, hsemicolon, ihBelow]

theorem each_isRecorded_map_undamaged {f : Forest Node} :
    (f.map Node.undamaged).Each Node.IsRecorded ↔ f.Each Node.IsRecorded := by
  have hnode {n : Node} {below : Forest Node} :
      n.undamaged.IsRecorded (below.map Node.undamaged) ↔ n.IsRecorded below := by
    constructor
    · exact fun h ↦ ⟨h.before, h.between, h.edges, h.afterName, h.after,
        fun hne ↦ h.semicolon (mt map_eq_nil_iff.mp hne),
        fun hne ↦ h.block (mt map_eq_nil_iff.mp hne), h.plain, h.rule, h.leaf⟩
    · exact fun h ↦ ⟨h.before, h.between, h.edges, h.afterName, h.after,
        fun hne ↦ h.semicolon (mt map_eq_nil_iff.mpr hne),
        fun hne ↦ h.block (mt map_eq_nil_iff.mpr hne), h.plain, h.rule, h.leaf⟩
  rw [each_map]
  exact ⟨Each.imp fun _ _ ↦ hnode.mp, Each.imp fun _ _ ↦ hnode.mpr⟩

end Forest

/-- A document that tolerant reading makes with benign repairs is printed as its source, whatever
the printer is. -/
theorem print_of_benign {source : Source} {doc : Document} (h : parse source .tolerant = .ok doc)
    (hbenign : ∀ r ∈ doc.recoveries, r.damage.changesText = false) (p : Printer) :
    (p.print doc).failure = none ∧ (p.print doc).text = source.text := by
  obtain ⟨final, hassemble, rfl⟩ := parse_eq_ok.mp h
  rw [final.recoveries_document] at hbenign
  obtain ⟨a, hwhole, hopen, hquiet, hwritten⟩ := Assembly.written_of_benign hassemble hbenign
  obtain ⟨hkind, hblock, hbelow, hsemicolon, htext⟩ := hwhole.spell_ended hopen
  have hcurrent : a.ended.current = final.current := congrArg (·.current) hquiet.symm
  rw [hcurrent] at hkind hbelow hsemicolon htext
  rw [hwritten] at htext
  obtain ⟨hunfolds, hsize, htop, hforest⟩ :=
    (Assembly.isMade_of_assemble hassemble).unfolds_document
  have htopKind : (final.document.node Document.root).kind = final.current.node.kind := by
    have h := congrArg Node.kind htop
    exact h
  have hflag : (final.document.node Document.root).raws.semicolon =
      final.current.node.raws.semicolon := by
    have h := congrArg (·.raws.semicolon) htop
    exact h
  have hafter : (final.document.node Document.root).raws.after =
      final.current.node.raws.after := by
    have h := congrArg (·.raws.after) htop
    exact h
  have hrecorded : (((Forest.ofRev final.current.earlier).numbers 1).map
      final.document.node).Each Node.IsRecorded := by
    rw [← Forest.each_isRecorded_map_unlinked, ← Forest.each_isRecorded_map_undamaged, hforest,
      Forest.each_isRecorded_map_undamaged, Forest.each_isRecorded_map_unlinked]
    exact hbelow
  have hprints := p.prints_of_records ⟨hunfolds, by rw [Forest.size_numbers, hsize]; omega,
    htopKind.trans hkind, hrecorded, fun hne ↦ by
      have hbelow : Forest.ofRev final.current.earlier ≠ .nil := by
        intro hnil
        rw [hnil] at hne
        exact hne rfl
      rw [hflag, hsemicolon hbelow]
      rfl⟩
  rw [hflag, hafter, ← Forest.spell_map_unlinked, ← Forest.spell_map_undamaged, hforest,
    Forest.spell_map_undamaged, Forest.spell_map_unlinked, htext] at hprints
  exact ⟨hprints.failure, hprints.text_eq⟩

/-- A word in front of a colon and a missing value are repaired, and nothing is lost. -/
theorem print_of_repaired :
    ∃ doc, parse ⟨"a{b c: ; d:e}".toList, none⟩ .tolerant = .ok doc ∧
      doc.recoveries.map (·.damage) = [.unknownWord, .missingValue] ∧
      (({} : Printer).print doc).text = "a{b c: ; d:e}".toList := by
  obtain ⟨doc, hdoc, hdamage⟩ : ∃ doc, parse ⟨"a{b c: ; d:e}".toList, none⟩ .tolerant = .ok doc ∧
      doc.recoveries.map (·.damage) = [.unknownWord, .missingValue] := ⟨_, rfl, rfl⟩
  refine ⟨doc, hdoc, hdamage, (print_of_benign hdoc (fun r hr ↦ ?_) {}).2⟩
  have hmem : r.damage ∈ doc.recoveries.map (·.damage) := List.mem_map_of_mem hr
  rw [hdamage, List.mem_cons, List.mem_singleton] at hmem
  rcases hmem with h | h <;> rw [h] <;> rfl

end Stylesheet
