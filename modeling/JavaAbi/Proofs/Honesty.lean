import JavaAbi.Proofs.Extraction

namespace JavaAbi

/-!
# Honest providers

With a provider that answers for a name only with a type of that name, the only errors of questions
are unknown symbols; and, for the supertypes of a declaration, that one of them could not be parsed.
The stubs of a batch that parses without diagnostics are extracted with nothing reported but unknown
symbols.

* `Client.only_unknown_symbols` — what can be wrong with a question, and with an extraction.
-/

open Course Stage

variable {w : World} {s : Session}

/-- A provider that answers for a name only with a type of that name. -/
def Provider.Honest (p : Provider) : Prop :=
  ∀ name d, p.resolve? name = some d → d.qualifiedName = name

theorem Provider.Honest.isUnknownSymbol {p : Provider} {e : ModelError} (h : p.Honest)
    (he : p.Excuses e) : e.isUnknownSymbol = true := by
  rcases he with he | ⟨name, d, hd, hne, -⟩
  · exact he
  · exact absurd (h name d hd) hne

/-- A supertype that the header of a type names could not be parsed. -/
def Session.HasUnparsedSupertype (s : Session) (id : ElementId) : Prop :=
  ∃ e shape, s.elements.get? id = some e ∧ e.source = .tree shape ∧
    ∃ r ∈ shape.extended ++ shape.implemented, r.isError = true

theorem Session.Shows.hasUnparsedSupertype (hs : s.Resolved w) {symbol : Symbol} {id : ElementId}
    (h : s.Shows symbol id) (hu : w.Unparsed symbol) : s.HasUnparsedSupertype id := by
  obtain ⟨d, tree, hd, htree, r, hr, herror⟩ := hu
  obtain ⟨hprimary, -, hden⟩ := h.tree hs.world hs.sound hs.of hd
  obtain ⟨i, tree', e, he⟩ := hs.sound.isTree hprimary hden
  cases htree.symm.trans (he.tree_world hs.of)
  exact ⟨e, _, he.get, he.source, r, hr, herror⟩

/-- In a batch that parses without diagnostics every written supertype is parsed. -/
theorem Client.parsed_of_clean {token : SessionToken} {files : Batch} {provider : Provider}
    {config : ModelConfig} (h : (parseBatch files).2.2 = []) (symbol : Symbol) :
    ¬(world token files provider config).Unparsed symbol := by
  rintro ⟨d, tree, -, htree, r, hr, herror⟩
  have hsound := DeclIndex.sound_of_tree? (parseBatch_sound files) htree
  exact Bool.false_ne_true ((hsound.head.parsed h r hr).symm.trans herror)

/-- A warning about an unknown symbol. -/
def Diagnostic.IsUnknownSymbol (d : Diagnostic) : Prop :=
  d.severity = .warning ∧ d.code = .unknownSymbol

theorem ModelError.diagnostic_isUnknownSymbol {e : ModelError} (h : e.isUnknownSymbol = true)
    (place : Span) : (e.diagnostic place).IsUnknownSymbol := by
  cases e with
  | unknownSymbol => exact ⟨rfl, rfl⟩
  | _ => cases h

/-! ### Stubs of a batch -/

theorem extracts_gathers {allowed : Diagnostic → Prop} (hw : w.Allows allowed) {b : Batch}
    {ids : List ElementId} (hids : ∀ id ∈ ids, id < s.elements.size) :
    (asking w).Gathers s (ids.mapM (extract b)) allowed fun _ _ => True := by
  induction ids generalizing s with
  | nil => exact .pure fun _ => trivial
  | cons id rest ih =>
    rw [List.mapM_cons]
    refine (extract_gathers hw (hids id List.mem_cons_self)).bind fun _ t _ hg _ => ?_
    refine (ih fun id' hid' => ?_).bind fun _ _ _ _ _ => .pure fun _ => trivial
    exact Nat.lt_of_lt_of_le (hids id' (List.mem_cons_of_mem _ hid')) hg.size_le

/-- What an extraction finds out. -/
theorem OpenBatch.extract_gathers {α : Type} {allowed : Diagnostic → Prop} {b : OpenBatch}
    {x : Extraction α} {P : α → Session → Prop} (hs : b.session.Idle w)
    (h : (asking w).Gathers b.session x allowed P) :
    ∃ r found t, b.extract x = .ok ⟨r, ({} : Sink).emitAll (b.reported ++ found)⟩ ∧
      (∀ d ∈ found, allowed d) ∧ P r t := by
  obtain ⟨_, t, hrun, -, -, ⟨r, found⟩, rfl, hfound, hr⟩ := h #[] (fun d hd => absurd hd (by simp)) hs
  refine ⟨r, found.toList, t, ?_, fun d hd => hfound d (Array.mem_toList_iff.1 hd), hr⟩
  have hrun' : (x.run #[]).run b.session = (.ok (r, found), t) := hrun
  unfold OpenBatch.extract
  rw [hrun']
  rfl

/-- The stubs of all top-level types are extracted after whatever was reported before. -/
theorem OpenBatch.stubs_extracted {allowed : Diagnostic → Prop} (hw : w.Allows allowed)
    {b : OpenBatch} (hs : b.session.Idle w) :
    ∃ stubs found, b.stubs = .ok ⟨.ok stubs, ({} : Sink).emitAll (b.reported ++ found)⟩ ∧
      ∀ d ∈ found, allowed d := by
  have hstubs : ∃ (r : Except ModelError (List TypeStub)) (found : List Diagnostic) (_ : Session),
      b.stubs = .ok ⟨r, ({} : Sink).emitAll (b.reported ++ found)⟩ ∧
        (∀ d ∈ found, allowed d) ∧ ∃ stubs, r = .ok stubs := by
    refine OpenBatch.extract_gathers (b := b)
      (P := fun (r : Except ModelError (List TypeStub)) _ => ∃ stubs, r = .ok stubs) hs ?_
    refine .lift topLevelTypes_answers fun r t _ _ hids => ?_
    obtain ⟨ids, rfl, hids, -⟩ := hids
    exact (extracts_gathers hw hids).bind fun stubs _ _ _ _ => .pure fun _ => ⟨stubs, rfl⟩
  obtain ⟨_, found, -, hextract, hfound, stubs, rfl⟩ := hstubs
  exact ⟨stubs, found, hextract, hfound⟩

/-- **The stubs of all top-level types** are extracted, and only what is allowed is reported. -/
theorem OpenBatch.stubs_ok {allowed : Diagnostic → Prop} (hw : w.Allows allowed) {files : Batch}
    (hs : s.Idle w) : ∃ x stubs, OpenBatch.stubs ⟨files, s, []⟩ = .ok x ∧ x.result = .ok stubs ∧
      ∀ d ∈ x.diagnostics.pending.toList, allowed d := by
  obtain ⟨stubs, found, hextract, hfound⟩ := OpenBatch.stubs_extracted (b := ⟨files, s, []⟩) hw hs
  refine ⟨_, stubs, hextract, rfl, fun d hd => ?_⟩
  rw [Sink.pending_emitAll] at hd
  exact hfound d (by simpa using hd)

namespace Client

variable (token : SessionToken) (files : Batch) (provider : Provider) (config : ModelConfig)
  (questions : List Question)

/-- **Only unknown symbols.** With an honest provider, a question about an element of the session, or
    about none, is answered, or a symbol is unknown, or it is for the supertypes of a type one of
    which could not be parsed; and if the batch parses without diagnostics, the stubs of its top-level
    types are extracted and nothing else is reported than unknown symbols. -/
theorem only_unknown_symbols (h : provider.Honest) :
    let c : Client := (start token files provider config).askAll questions
    (∀ q, (∀ id ∈ q.element?, id < c.session.elements.size) →
      (c.ask q).1.IsAnswer ∨ ∃ e, (c.ask q).1 = .unanswered e ∧
        (e.isUnknownSymbol = true ∨ e = .unparsableSupertype ∧
          ∃ id, q.supertypesOf? = some id ∧ c.session.HasUnparsedSupertype id)) ∧
    ((parseBatch files).2.2 = [] →
      ∃ x stubs, OpenBatch.stubs ⟨files, c.session, []⟩ = .ok x ∧ x.result = .ok stubs ∧
        ∀ d ∈ x.diagnostics.pending.toList, d.IsUnknownSymbol) := by
  intro c
  have hfits : c.Fits _ := fits_asked token files provider config questions
  refine ⟨fun q hid => ?_, fun hclean => ?_⟩
  · refine (ask_reply hfits hid).imp_right fun ⟨e, he, hblame⟩ => ⟨e, he, ?_⟩
    rcases hblame with hexc | ⟨id, symbol, hq, hshow, he, hunparsed⟩
    · exact .inl (h.isUnknownSymbol hexc)
    · exact .inr ⟨he, id, hq, hshow.hasUnparsedSupertype hfits.idle.resolved hunparsed⟩
  · refine OpenBatch.stubs_ok (fun symbol e place he => ?_) hfits.idle
    rcases he with hexc | ⟨-, hunparsed⟩
    · exact ModelError.diagnostic_isUnknownSymbol (h.isUnknownSymbol hexc) place
    · exact absurd hunparsed (parsed_of_clean hclean symbol)

/-- A provider that knows the root type only. -/
def onlyObject : Provider where
  resolve? name :=
    if name = "java.lang.Object" then
      some { qualifiedName := "java.lang.Object", package := "java.lang", kind := .classType }
    else none
  extent := 1

theorem onlyObject_honest : onlyObject.Honest := by
  intro name d hd
  dsimp only [onlyObject] at hd
  split at hd
  · rename_i hname
    rw [← Option.some.inj hd, hname]
  · cases hd

/-- A class of an unknown superclass and an enum whose constant has a body, parsed without
    diagnostics. -/
theorem only_unknown_symbols_enum :
    onlyObject.Honest ∧
      (parseBatch #[⟨"A.java", "package p; class A extends B { A[] a; } enum E { X { int f; } }"⟩]).2.2
        = [] ∧
      ∃ x stubs, OpenBatch.stubs
          ⟨#[⟨"A.java", "package p; class A extends B { A[] a; } enum E { X { int f; } }"⟩],
            ((start 0 #[⟨"A.java",
              "package p; class A extends B { A[] a; } enum E { X { int f; } }"⟩] onlyObject {}).askAll
              [.lookupType "p.A", .superclass 0, .ownType 7]).session, []⟩ = .ok x ∧
        x.result = .ok stubs ∧ ∀ d ∈ x.diagnostics.pending.toList, d.IsUnknownSymbol := by
  have hclean : (parseBatch #[⟨"A.java",
      "package p; class A extends B { A[] a; } enum E { X { int f; } }"⟩]).2.2 = [] := by
    decide +kernel
  exact ⟨onlyObject_honest, hclean,
    (only_unknown_symbols 0 _ onlyObject {} _ onlyObject_honest).2 hclean⟩

end Client

end JavaAbi
