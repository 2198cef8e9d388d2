import LoxLang.Native
import LoxLang.Proofs.Form.Readable
/-!
# Expressions that are read

The terminals of a text spell names and strings, what has been read of them holds no others, and so
every expression that is read from prefix form is readable.
-/

namespace LoxLang

/-! ## Terminals -/

/-- What a terminal is like, as far as expressions show it. -/
def Terminal.Proper : Terminal → Prop
  | name text => IsWord text
  | string body => '"' ∉ body.toList
  | _ => True

theorem Terminal.proper_next? {c : Char} {cs : List Char} {t : Terminal} {size : ℕ}
    (h : next? c cs = some (t, size)) : t.Proper := by
  unfold next? at h
  split at h
  · cases h; trivial
  split at h
  · cases h; trivial
  split at h
  · cases h; trivial
  split at h
  · cases h; trivial
  split at h
  · dsimp only at h
    split at h
    · cases h
      intro hquote
      rw [String.toList_ofList] at hquote
      simpa using List.mem_takeWhile_imp hquote
    · cases h
  split at h
  · next hstart =>
    cases h
    exact ⟨c, _, String.toList_ofList, hstart, fun d hd => List.mem_takeWhile_imp hd⟩
  split at h
  · cases h; trivial
  · cases h

theorem proper_terminals (here : Place) (cs : List Char) :
    ∀ t ∈ (terminals here cs).1, t.terminal.Proper := by
  fun_induction terminals here cs with
  | case1 => simp
  | case2 => assumption
  | case3 => simp
  | case4 here c cs _ t size hnext ts ending hrest ih =>
    rw [hrest] at ih
    intro u hu
    rcases List.mem_cons.1 hu with rfl | hu
    · exact Terminal.proper_next? hnext
    · exact ih u hu

/-! ## Forms -/

/-- A form whose names and strings are those of terminals. -/
inductive Form.Proper : Form → Prop
  | number {d : Decimal} : Proper (.number d)
  | string {body : String} : '"' ∉ body.toList → Proper (.string body)
  | name {text : String} : IsWord text → Proper (.name text)
  | list {head : String} {operands : List Form} : (∀ f ∈ operands, f.Proper) →
      Proper (.list head operands)

/-- Open forms whose operands are proper. -/
def ProperOpen (outer : List OpenForm) : Prop := ∀ o ∈ outer, ∀ f ∈ o.operands, f.Proper

namespace Reading

/-- What has been read holds proper forms only. -/
def Proper : Reading → Prop
  | start => True
  | opened outer => ProperOpen outer
  | inside current outer => ProperOpen (current :: outer)
  | whole form => form.Proper

theorem proper_finish {f : Form} (hf : f.Proper) {outer : List OpenForm} (ho : ProperOpen outer) :
    (finish f outer).Proper := by
  cases outer with
  | nil => exact hf
  | cons current outer =>
    intro o h
    rcases List.mem_cons.1 h with rfl | h
    · intro g hg
      rcases List.mem_cons.1 hg with rfl | hg
      · exact hf
      · exact ho current (by simp) g hg
    · exact ho o (by simp [h])

theorem proper_atom? {t : Terminal} (ht : t.Proper) {f : Form} (h : atom? t = some f) :
    f.Proper := by
  cases t <;> cases h
  · exact .number
  · exact .string ht
  · exact .name ht

/-- Reading one more terminal keeps what has been read proper. -/
theorem proper_step? {r r' : Reading} (hr : r.Proper) {t : Terminal} (ht : t.Proper)
    (h : r.step? t = some r') : r'.Proper := by
  unfold step? at h
  split at h
  · cases h
    exact fun o ho => absurd ho List.not_mem_nil
  · obtain ⟨f, hf, rfl⟩ := Option.map_eq_some_iff.1 h
    exact proper_atom? ht hf
  · obtain ⟨head, -, rfl⟩ := Option.map_eq_some_iff.1 h
    intro o ho
    rcases List.mem_cons.1 ho with rfl | ho
    · exact fun f hf => absurd hf List.not_mem_nil
    · exact hr o ho
  · cases h
    exact hr
  · next current outer =>
    split at h
    · cases h
    · cases h
      refine proper_finish (.list fun f hf => ?_) fun o ho => hr o (by simp [ho])
      exact hr current (by simp) f (List.mem_reverse.1 hf)
  · obtain ⟨f, hf, rfl⟩ := Option.map_eq_some_iff.1 h
    exact proper_finish (proper_atom? ht hf) hr
  · cases h

end Reading

namespace Form

theorem proper_ofTerminals {r : Reading} (hr : r.Proper) {last : Place} {ts : List PlacedTerminal}
    (hts : ∀ t ∈ ts, t.terminal.Proper) {ending : Ending} {f : Form}
    (h : ofTerminals r last ts ending = .ok f) : f.Proper := by
  induction ts generalizing r last with
  | nil =>
    cases ending with
    | badCharacter => cases h
    | finished =>
      unfold ofTerminals at h
      split at h
      · cases h
        exact hr
      · cases h
  | cons t ts ih =>
    unfold ofTerminals at h
    split at h
    · next r' hstep =>
      exact ih (Reading.proper_step? hr (hts t (by simp)) hstep) (fun u hu => hts u (by simp [hu])) h
    · cases h

/-- A text has proper forms only. -/
theorem proper_ofText {text : String} {f : Form} (h : ofText text = .ok f) : f.Proper :=
  proper_ofTerminals (r := .start) trivial (proper_terminals _ _) h

/-! ## Expressions -/

theorem readable_nameNode {text : String} (h : IsWord text) : (nameNode text).Readable := by
  unfold nameNode
  split
  · exact .literal trivial
  split
  · exact .literal trivial
  split
  · exact .literal trivial
  · refine .ident ⟨rfl, rfl, rfl, h, ?_⟩
    simp_all [literalNames]

theorem mem_of_lookup {heads : List (String × Kind)} {head : String} {kind : Kind}
    (h : heads.lookup head = some kind) : (head, kind) ∈ heads := by
  obtain ⟨before, after, rfl, -⟩ := List.lookup_eq_some_iff.1 h
  simp

theorem readable_unary? {head : String} {right n : Node} (hright : right.Readable)
    (h : unary? head right = some n) : n.Readable := by
  unfold unary? at h
  split at h
  · cases h
    exact .grouping hright
  · obtain ⟨kind, hkind, rfl⟩ := Option.map_eq_some_iff.1 h
    exact .unary ⟨rfl, mem_of_lookup hkind⟩ hright

theorem readable_binary? {head : String} {left right n : Node} (hleft : left.Readable)
    (hright : right.Readable) (h : binary? head left right = some n) : n.Readable := by
  unfold binary? at h
  split at h
  · next hkind =>
    cases h
    exact .logical hleft ⟨rfl, mem_of_lookup hkind⟩ hright
  · next hkind =>
    cases h
    exact .binary hleft ⟨rfl, mem_of_lookup hkind⟩ hright
  · split at h
    · split at h
      · cases h
        cases hleft with
        | ident ht => exact .assign ht hright
        | misplaced hm => exact hm.elim
      · cases h
    · cases h

/-- A head makes readable expressions of readable operands. -/
theorem readable_compose? {head : String} {operands : List Node} {n : Node}
    (ho : ∀ m ∈ operands, m.Readable) (h : compose? head operands = some n) : n.Readable := by
  unfold compose? at h
  split at h
  · cases h
  · next callee arguments =>
    have hcallee : callee.Readable := ho callee (by simp)
    split at h
    · cases h
      exact .call hcallee ⟨rfl, rfl, rfl, rfl⟩
        (List.forall₂_same.2 fun m hm => ho m (by simp [hm]))
    · split at h
      · exact readable_unary? hcallee h
      · exact readable_binary? hcallee (ho _ (by simp)) h
      · cases h

theorem mem_toNodes {room : ℕ} {forms : List Form} {ns : List Node}
    (h : toNodes room forms = .ok ns) : ∀ n ∈ ns, ∃ f ∈ forms, f.toNode room = .ok n := by
  induction forms generalizing ns with
  | nil =>
    rw [toNodes] at h
    cases h
    simp
  | cons form forms ih =>
    rw [toNodes] at h
    obtain ⟨n, hn, h⟩ := ok_of_bind h
    obtain ⟨rest, hrest, h⟩ := ok_of_bind h
    cases h
    intro m hm
    rcases List.mem_cons.1 hm with rfl | hm
    · exact ⟨form, by simp, hn⟩
    · obtain ⟨f, hf, hm⟩ := ih hrest m hm
      exact ⟨f, by simp [hf], hm⟩

/-- The expression of a proper form is readable. -/
theorem Proper.readable {f : Form} (hf : f.Proper) {room : ℕ} {n : Node}
    (h : f.toNode room = .ok n) : n.Readable := by
  induction hf generalizing room n with
  | number =>
    rw [toNode] at h
    cases h
    exact .literal (Decimal.toFloat_unsigned _)
  | string hbody =>
    rw [toNode] at h
    cases h
    exact .literal hbody
  | name hword =>
    rw [toNode] at h
    cases h
    exact readable_nameNode hword
  | @list head operands _ ih =>
    cases room with
    | zero =>
      rw [toNode] at h
      cases h
    | succ room =>
      rw [toNode] at h
      obtain ⟨nodes, hnodes, h⟩ := ok_of_bind h
      have ho : ∀ m ∈ nodes, m.Readable := by
        intro m hm
        obtain ⟨f, hf, hm⟩ := mem_toNodes hnodes m hm
        exact ih f hf hm
      split at h
      · next hn =>
        cases h
        exact readable_compose? ho hn
      · cases h

end Form

/-- Every expression that is read is readable. -/
theorem Node.readable_ofText {text : String} {limit : ℕ} {n : Node}
    (h : ofText text limit = .ok n) : n.Readable := by
  obtain ⟨form, hform, h⟩ := ok_of_bind h
  exact (Form.proper_ofText hform).readable h

end LoxLang
