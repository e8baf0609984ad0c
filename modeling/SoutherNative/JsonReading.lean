import SoutherNative.JsonSyntax

set_option autoImplicit false

/-!
# A reading is of one document

What the parser has read is a document some of whose containers are still open. `Standing` is the
invariant of the loop: the bytes read so far write the open containers, the events handed over are
theirs, and what is read next is what the grammar has next.
-/
namespace SoutherNative.JsonReading
open Utf8 JsonScanner JsonScanner.Parser JsonGrammar JsonSyntax

inductive Open
  | array (items : List Doc)
  | object (members : List (Text × Doc)) (key : Option Text)

namespace Open

def isObject : Open → Bool
  | .array _ => false
  | .object _ _ => true

def events : Open → List Event
  | .array items => .beginArray :: itemEvents items
  | .object members key => .beginObject :: memberEvents members ++ (key.map Event.key).toList

def depth : Open → ℕ
  | .array items => itemsDepth items
  | .object members _ => membersDepth members

/-- The container with `d` as the element, or as the value of the member, it was waiting for. -/
def push (d : Doc) : Open → Open
  | .array items => .array (items ++ [d])
  | .object members (some key) => .object (members ++ [(key, d)]) none
  | .object members none => .object members none

def closed : Open → Doc
  | .array items => .array items
  | .object members none => .object members
  | .object members (some key) => .object (members ++ [(key, .null)])

theorem events_closed (f : Open) : f.events <+: f.closed.events := by
  rcases f with items | ⟨members, _ | key⟩
  · exact ⟨[.endArray], by simp [events, closed, Doc.events]⟩
  · exact ⟨[.endObject], by simp [events, closed, Doc.events]⟩
  · exact ⟨[.null, .endObject], by simp [events, closed, Doc.events, memberEvents]⟩

end Open

inductive Awaits : Open → Bytes → Prop
  | first : Awaits (.array []) [byte '[']
  | next {items : List Doc} {bs w : Bytes} : Elements items bs → Spaces w →
      Awaits (.array items) (byte '[' :: bs ++ w ++ [byte ','])
  | firstMember {key : Text} {w u : Bytes} : Spaces w → IsText key.written → Spaces u →
      Awaits (.object [] (some key)) (byte '{' :: w ++ quoted key ++ u ++ [byte ':'])
  | nextMember {members : List (Text × Doc)} {key : Text} {bs x w u : Bytes} :
      Members members bs → Spaces x → Spaces w → IsText key.written → Spaces u →
      Awaits (.object members (some key))
        (byte '{' :: bs ++ x ++ byte ',' :: w ++ quoted key ++ u ++ [byte ':'])

inductive Settled : Open → Bytes → Prop
  | array {items : List Doc} {bs : Bytes} : Elements items bs →
      Settled (.array items) (byte '[' :: bs)
  | object {members : List (Text × Doc)} {bs : Bytes} : Members members bs →
      Settled (.object members none) (byte '{' :: bs)

inductive Nest : List Open → Bytes → Prop
  | top {w : Bytes} : Spaces w → Nest [] w
  | inside {f : Open} {fs : List Open} {pre bs w : Bytes} : Nest fs pre → Awaits f bs → Spaces w →
      Nest (f :: fs) (pre ++ bs ++ w)

inductive Stands : Next → List Open → Option Doc → Bytes → Prop
  | start : Stands (.value false) [] none []
  | value {f : Open} {fs : List Open} {pre bs : Bytes} {closes : Bool} : Nest fs pre → Awaits f bs →
      (closes = true → f = .array [] ∧ bs = [byte '[']) →
      Stands (.value closes) (f :: fs) none (pre ++ bs)
  | key {fs : List Open} {pre : Bytes} : Nest fs pre →
      Stands (.key true) (.object [] none :: fs) none (pre ++ [byte '{'])
  | after {f : Open} {fs : List Open} {pre bs : Bytes} : Nest fs pre → Settled f bs →
      Stands .after (f :: fs) none (pre ++ bs)
  | whole {d : Doc} {w b : Bytes} : Spaces w → Writes d b → Stands .after [] (some d) (w ++ b)

def stackEvents : List Open → List Event
  | [] => []
  | f :: fs => stackEvents fs ++ f.events

def Fits : List Open → Prop
  | [] => True
  | f :: fs => f.depth + (fs.length + 1) ≤ deepest ∧ Fits fs

theorem Fits.length_le {fs : List Open} (h : Fits fs) : fs.length ≤ deepest := by
  cases fs with
  | nil => exact Nat.zero_le _
  | cons f fs =>
    have := h.1
    simp only [List.length_cons]
    omega

structure Standing (bytes : Bytes) (p : Parser) (es : List Event) (stack : List Open)
    (root : Option Doc) (pre : Bytes) : Prop where
  bytes : bytes = pre ++ p.rest
  stands : Stands p.next stack root pre
  objects : p.objects = stack.map Open.isObject
  events : es = stackEvents stack ++ (root.map Doc.events).getD []
  fits : Fits stack
  rootFits : ∀ d ∈ root, d.depth ≤ deepest

theorem Awaits.push {f : Open} {d : Doc} {bs w b : Bytes} (h : Awaits f bs) (hw : Spaces w)
    (hd : Writes d b) : Settled (f.push d) (bs ++ w ++ b) := by
  cases h with
  | first => exact .array (.one hw hd)
  | next hitems hv =>
    have := Settled.array (.more hitems hv hw hd)
    simpa [Open.push, List.append_assoc] using this
  | firstMember hv hkey hu =>
    have := Settled.object (.one hv hkey hu hw hd)
    simpa [Open.push, List.append_assoc] using this
  | nextMember hms hx hv hkey hu =>
    have := Settled.object (.more hms hx hv hkey hu hw hd)
    simpa [Open.push, List.append_assoc] using this

theorem Awaits.push_events {f : Open} {bs : Bytes} (h : Awaits f bs) (d : Doc) :
    (f.push d).events = f.events ++ d.events := by
  cases h <;> simp [Open.push, Open.events, itemEvents, memberEvents]

theorem Awaits.push_depth {f : Open} {bs : Bytes} (h : Awaits f bs) (d : Doc) :
    (f.push d).depth = max f.depth d.depth := by
  cases h <;> simp [Open.push, Open.depth, itemsDepth, membersDepth]

theorem push_isObject (f : Open) (d : Doc) : (f.push d).isObject = f.isObject := by
  rcases f with _ | ⟨members, _ | key⟩ <;> rfl

/-- Where a value may begin after what is read, the containers open are waiting for it. -/
theorem Stands.nest {p : Parser} {stack : List Open} {root : Option Doc} {pre lead : Bytes}
    (h : Stands p.next stack root pre) (ho : p.objects = stack.map Open.isObject)
    (hl : ValueLead p lead) : Nest stack (pre ++ lead) := by
  cases hl with
  | here hn hw =>
    rw [hn] at h
    cases h with
    | start => exact .top hw
    | value hfs hf _ => exact .inside hfs hf hw
  | comma hn hob hw hv =>
    rw [hn] at h
    cases h with
    | whole => simp [ho] at hob
    | after hfs hf =>
      cases hf with
      | object => simp [ho, Open.isObject] at hob
      | array hitems =>
        have := Nest.inside hfs (.next hitems hw) hv
        simpa [List.append_assoc] using this

theorem standing_settle {bytes pre b : Bytes} {q : Parser} {stack : List Open} {d : Doc}
    (hbytes : bytes = pre ++ b ++ q.rest) (hn : q.next = .after) (hnest : Nest stack pre)
    (hobjects : q.objects = stack.map Open.isObject) (hd : Writes d b)
    (hfits : Fits stack) (hdepth : d.depth + stack.length ≤ deepest) :
    ∃ stack' root, Standing bytes q (stackEvents stack ++ d.events) stack' root (pre ++ b) := by
  cases hnest with
  | top hw =>
    refine ⟨[], some d, hbytes, hn ▸ .whole hw hd, hobjects, by simp [stackEvents], trivial, ?_⟩
    intro d' hd'
    simp only [Option.mem_def, Option.some.injEq] at hd'
    subst hd'
    simpa using hdepth
  | @inside f fs pre bs w hfs hf hw =>
    refine ⟨f.push d :: fs, none, hbytes, ?_, ?_, ?_, ?_, by simp⟩
    · have := Stands.after hfs (hf.push hw hd)
      rw [hn]
      simpa [List.append_assoc] using this
    · simpa [push_isObject] using hobjects
    · simp [stackEvents, hf.push_events]
    · refine ⟨?_, hfits.2⟩
      have h1 := hfits.1
      rw [hf.push_depth]
      simp only [List.length_cons] at hdepth
      omega

theorem Stands.endArray {p : Parser} {stack : List Open} {root : Option Doc} {pre w : Bytes}
    (h : Stands p.next stack root pre) (ho : p.objects = stack.map Open.isObject)
    (hc : p.next = .value true ∨ p.next = .after ∧ p.objects.head? = some false)
    (hw : Spaces w) : ∃ items fs pre' b, stack = .array items :: fs ∧ Nest fs pre' ∧
      pre ++ (w ++ [byte ']']) = pre' ++ b ∧ Writes (.array items) b := by
  rcases hc with hn | ⟨hn, hhead⟩
  · rw [hn] at h
    cases h with
    | @value f fs pre' bs _ hfs hf hcloses =>
      obtain ⟨rfl, rfl⟩ := hcloses rfl
      exact ⟨[], fs, pre', _, rfl, hfs, by simp [List.append_assoc], .emptyArray hw⟩
  · rw [hn] at h
    cases h with
    | whole => simp [ho] at hhead
    | @after f fs pre' bs hfs hf =>
      cases hf with
      | object => simp [ho, Open.isObject] at hhead
      | array hitems =>
        exact ⟨_, fs, pre', _, rfl, hfs, by simp [List.append_assoc], .array hitems hw⟩

theorem Stands.endObject {p : Parser} {stack : List Open} {root : Option Doc} {pre w : Bytes}
    (h : Stands p.next stack root pre) (ho : p.objects = stack.map Open.isObject)
    (hc : p.next = .key true ∨ p.next = .after ∧ p.objects.head? = some true)
    (hw : Spaces w) : ∃ members fs pre' b, stack = .object members none :: fs ∧ Nest fs pre' ∧
      pre ++ (w ++ [byte '}']) = pre' ++ b ∧ Writes (.object members) b := by
  rcases hc with hn | ⟨hn, hhead⟩
  · rw [hn] at h
    cases h with
    | @key fs pre' hfs =>
      exact ⟨[], fs, pre', _, rfl, hfs, by simp [List.append_assoc], .emptyObject hw⟩
  · rw [hn] at h
    cases h with
    | whole => simp [ho] at hhead
    | @after f fs pre' bs hfs hf =>
      cases hf with
      | array => simp [ho, Open.isObject] at hhead
      | object hmembers =>
        exact ⟨_, fs, pre', _, rfl, hfs, by simp [List.append_assoc], .object hmembers hw⟩

/-- A key read whole: the innermost container is an object waiting for that member's value. -/
theorem Stands.key_awaits {p : Parser} {stack : List Open} {root : Option Doc}
    {pre lead u : Bytes} {key : Text} (h : Stands p.next stack root pre)
    (ho : p.objects = stack.map Open.isObject) (hl : KeyLead p lead) (hk : IsText key.written)
    (hu : Spaces u) : ∃ members fs pre' bs, stack = .object members none :: fs ∧ Nest fs pre' ∧
      pre ++ (lead ++ quoted key ++ u ++ [byte ':']) = pre' ++ bs ∧
      Awaits (.object members (some key)) bs := by
  cases hl with
  | here hn hw =>
    rw [hn] at h
    cases h with
    | @key fs pre' hfs =>
      exact ⟨[], fs, pre', _, rfl, hfs, by simp [List.append_assoc], .firstMember hw hk hu⟩
  | comma hn hob hx hw =>
    rw [hn] at h
    cases h with
    | whole => simp [ho] at hob
    | @after f fs pre' bs hfs hf =>
      cases hf with
      | array => simp [ho, Open.isObject] at hob
      | object hmembers =>
        exact ⟨_, fs, pre', _, rfl, hfs, by simp [List.append_assoc],
          .nextMember hmembers hx hw hk hu⟩

theorem Stands.root_of_cons {next : Next} {f : Open} {fs : List Open} {root : Option Doc}
    {pre : Bytes} (h : Stands next (f :: fs) root pre) : root = none := by
  cases h <;> rfl

theorem Stands.root_none {p : Parser} {stack : List Open} {root : Option Doc} {pre lead : Bytes}
    (h : Stands p.next stack root pre) (ho : p.objects = stack.map Open.isObject)
    (hl : ValueLead p lead) : root = none := by
  generalize hn : p.next = next at h
  cases h with
  | whole =>
    cases hl with
    | here hv => simp [hn] at hv
    | comma _ hob => simp [ho] at hob
  | _ => rfl

/-- What one step keeps: the bytes and the events so far are of one document being read. -/
theorem standing_step {bytes : Bytes} {p q : Parser} {es : List Event} {e : Event}
    {stack : List Open} {root : Option Doc} {pre : Bytes}
    (h : Standing bytes p es stack root pre) (hs : Stepped p e q) :
    ∃ stack' root' pre', Standing bytes q (es ++ [e]) stack' root' pre' := by
  have hlen : p.objects.length = stack.length := by simp [h.objects]
  cases hs with
  | @scalar lead b d _ _ hl hw hd hz hto =>
    have hroot := h.stands.root_none h.objects hl
    subst hroot
    have hbytes : bytes = pre ++ lead ++ b ++ q.rest := by
      rw [h.bytes, hto.rest]
      simp [List.append_assoc]
    obtain ⟨stack', root', hst⟩ := standing_settle hbytes hto.next
      (h.stands.nest h.objects hl) (hto.objects.trans h.objects) hw h.fits
      (by rw [hz, Nat.zero_add]; exact h.fits.length_le)
    refine ⟨stack', root', pre ++ lead ++ b, ?_⟩
    rw [h.events, ← hd]
    simpa using hst
  | @beginArray lead _ hl hdeep hto =>
    have hroot := h.stands.root_none h.objects hl
    subst hroot
    refine ⟨.array [] :: stack, none, pre ++ lead ++ [byte '['], ?_, ?_, ?_, ?_, ?_, by simp⟩
    · rw [h.bytes, hto.rest]
      simp [List.append_assoc]
    · rw [hto.next]
      exact .value (h.stands.nest h.objects hl) .first (fun _ => ⟨rfl, rfl⟩)
    · rw [hto.objects, h.objects]
      rfl
    · rw [h.events]
      simp [stackEvents, Open.events, itemEvents]
    · refine ⟨?_, h.fits⟩
      have := h.fits.length_le
      rw [hlen] at hdeep
      simp only [Open.depth, itemsDepth]
      omega
  | @beginObject lead _ hl hdeep hto =>
    have hroot := h.stands.root_none h.objects hl
    subst hroot
    refine ⟨.object [] none :: stack, none, pre ++ lead ++ [byte '{'], ?_, ?_, ?_, ?_, ?_, by simp⟩
    · rw [h.bytes, hto.rest]
      simp [List.append_assoc]
    · rw [hto.next]
      exact .key (h.stands.nest h.objects hl)
    · rw [hto.objects, h.objects]
      rfl
    · rw [h.events]
      simp [stackEvents, Open.events, memberEvents]
    · refine ⟨?_, h.fits⟩
      have := h.fits.length_le
      rw [hlen] at hdeep
      simp only [Open.depth, membersDepth]
      omega
  | @key lead u key _ hl hk hu hto =>
    obtain ⟨members, fs, pre', bs, rfl, hfs, hpre, hf⟩ :=
      h.stands.key_awaits h.objects hl hk hu
    have hroot := h.stands.root_of_cons
    subst hroot
    refine ⟨.object members (some key) :: fs, none, pre' ++ bs, ?_, ?_, ?_, ?_, h.fits, by simp⟩
    · rw [h.bytes, hto.rest, ← hpre]
      simp [List.append_assoc]
    · rw [hto.next]
      exact .value hfs hf (by simp)
    · rw [hto.objects, h.objects]
      rfl
    · rw [h.events]
      simp [stackEvents, Open.events]
  | @endArray w _ hc hw hto =>
    obtain ⟨items, fs, pre', b, rfl, hfs, hpre, hd⟩ := h.stands.endArray h.objects hc hw
    have hroot := h.stands.root_of_cons
    subst hroot
    have hbytes : bytes = pre' ++ b ++ q.rest := by
      rw [h.bytes, hto.rest, ← hpre]
      simp [List.append_assoc]
    have hfits := h.fits
    obtain ⟨stack', root', hst⟩ := standing_settle hbytes hto.next hfs
      (by rw [hto.objects, h.objects]; rfl) hd hfits.2
      (by have := hfits.1; simp only [Open.depth, Doc.depth] at this ⊢; omega)
    refine ⟨stack', root', pre' ++ b, ?_⟩
    rw [h.events]
    simpa [stackEvents, Open.events, Doc.events] using hst
  | @endObject w _ hc hw hto =>
    obtain ⟨members, fs, pre', b, rfl, hfs, hpre, hd⟩ := h.stands.endObject h.objects hc hw
    have hroot := h.stands.root_of_cons
    subst hroot
    have hbytes : bytes = pre' ++ b ++ q.rest := by
      rw [h.bytes, hto.rest, ← hpre]
      simp [List.append_assoc]
    have hfits := h.fits
    obtain ⟨stack', root', hst⟩ := standing_settle hbytes hto.next hfs
      (by rw [hto.objects, h.objects]; rfl) hd hfits.2
      (by have := hfits.1; simp only [Open.depth, Doc.depth] at this ⊢; omega)
    refine ⟨stack', root', pre' ++ b, ?_⟩
    rw [h.events]
    simpa [stackEvents, Open.events, Doc.events] using hst

theorem Nest.events_prefix {fs : List Open} {pre : Bytes} (h : Nest fs pre) (d : Doc) :
    ∃ d' : Doc, stackEvents fs ++ d.events <+: d'.events := by
  induction h generalizing d with
  | top => exact ⟨d, List.prefix_rfl⟩
  | @inside f fs pre bs w hfs hf hw ih =>
    obtain ⟨d', hd'⟩ := ih (f.push d).closed
    refine ⟨d', List.IsPrefix.trans ?_ hd'⟩
    have hclosed := (f.push d).events_closed
    rw [hf.push_events] at hclosed
    simpa [stackEvents, List.append_assoc] using hclosed

theorem Standing.events_prefix {bytes pre : Bytes} {p : Parser} {es : List Event}
    {stack : List Open} {root : Option Doc} (h : Standing bytes p es stack root pre) :
    ∃ d : Doc, es <+: d.events := by
  have hopen : ∀ {f : Open} {fs : List Open} {pre' : Bytes}, Nest fs pre' →
      ∃ d : Doc, stackEvents (f :: fs) <+: d.events := by
    intro f fs pre' hfs
    obtain ⟨d, hd⟩ := hfs.events_prefix f.closed
    exact ⟨d, ((List.prefix_append_right_inj _).mpr f.events_closed).trans hd⟩
  have hes := h.events
  have hstands := h.stands
  generalize p.next = next at hstands
  cases hstands with
  | start => exact ⟨.null, by simp [hes, stackEvents]⟩
  | value hfs _ _ => simpa [hes] using hopen hfs
  | key hfs => simpa [hes] using hopen hfs
  | after hfs _ => simpa [hes] using hopen hfs
  | @whole d => exact ⟨d, by simp [hes, stackEvents]⟩

/-- Where the loop ends without a refusal, all the bytes are one document. -/
theorem Standing.document {bytes pre : Bytes} {p : Parser} {es : List Event}
    {stack : List Open} {root : Option Doc} (h : Standing bytes p es stack root pre)
    (hs : step p = none) : ∃ d, Document d bytes ∧ d.depth ≤ deepest ∧ es = d.events := by
  obtain ⟨w, ht, hw⟩ := took_spaces p
  have hstands := h.stands
  rw [← ht.next] at hstands
  unfold step at hs
  cases hn : p.spaces.next with
  | done =>
    rw [hn] at hstands
    cases hstands
  | value closes => simp [hn] at hs
  | key closes => simp [hn] at hs
  | after =>
    cases ho : p.spaces.objects with
    | cons object objects => simp [hn, ho] at hs
    | nil =>
      simp only [hn, ho] at hs
      split_ifs at hs with hrest
      have hempty : stack = [] := by
        simpa [ht.objects, h.objects] using ho
      subst hempty
      rw [hn] at hstands
      cases hstands with
      | @whole d v b hv hd =>
        refine ⟨d, ⟨v, b, w, ?_, hv, hd, hw⟩, h.rootFits d rfl, by simp [h.events, stackEvents]⟩
        rw [h.bytes, ht.rest, hrest, List.append_nil]

theorem standing_new (bytes : Bytes) : Standing bytes (.new bytes) [] [] none [] :=
  ⟨rfl, .start, rfl, rfl, trivial, by simp⟩

/-- A whole run from where the parser stands: the events begin some document's, and where it ends
well they are all the events of the document the bytes are. -/
theorem standing_readFrom {bytes pre : Bytes} {p : Parser} {es : List Event}
    {stack : List Open} {root : Option Doc} (h : Standing bytes p es stack root pre) :
    (∃ d : Doc, es ++ (readFrom p).1 <+: d.events) ∧
      ((readFrom p).2 = .ok () →
        ∃ d, Document d bytes ∧ d.depth ≤ deepest ∧ es ++ (readFrom p).1 = d.events) := by
  fun_induction readFrom p generalizing es stack root pre with
  | case1 p hs => exact ⟨by simpa using h.events_prefix, fun _ => by simpa using h.document hs⟩
  | case2 p malformed hs => exact ⟨by simpa using h.events_prefix, fun hok => by simp at hok⟩
  | case3 p e q hs events answer hq ih =>
    obtain ⟨stack', root', pre', h'⟩ := standing_step h (step_stepped hs)
    simpa [hq] using ih h'

end SoutherNative.JsonReading
