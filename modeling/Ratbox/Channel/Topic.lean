import Ratbox.Channel.Basic
import Ratbox.Lib.Stamp

/-!
# The topic of a channel in a burst

Servers that link tell each other the topics of the channels, with the time at which each was set.
The older topic wins; a message with the text that the channel has is dropped, since the times of
one topic may differ a little.

Source: `modules/m_tb.c`, lines 69–123, and `src/channel.c`, lines 742–802.

## Main definitions

* `Topic.TopicInfo`, `Topic.Chan`, `Topic.State`: the topics of the channels.
* `Topic.setChannelTopic`, `Topic.msTb`: `set_channel_topic` and `ms_tb`.
* `Topic.Message`: a TB message.

## Main results

* `Topic.topicAt_msTb`: a message is taken over as `Stamp.take` says.
* `Topic.oldest_iff`: the oldest topic remains in every order exactly when no other message has its
  text.
-/

namespace Ratbox.Topic

open Text List Option

/-- `USERHOST_REPLYLEN`. -/
def userhostReplyLen : ℕ := 108

/-- `struct topic_info`. -/
structure TopicInfo where
  topic : Str
  topicInfo : Str
  topicTime : ℤ
  deriving DecidableEq

/-- `struct Channel`. -/
structure Chan where
  chname : Str
  topic : Option TopicInfo
  deriving DecidableEq

/-- The settings of channels, after they were checked. -/
structure Conf where
  topiclen : ℕ
  burstTopicwho : Bool
  topiclen_pos : 0 < topiclen
  topiclen_le : topiclen ≤ 390

/-- The channels by their key in `HASH_CHANNEL`. -/
structure State where
  chan : Str → Option Chan

/-- The key of a name in `HASH_CHANNEL`: the name up to case. -/
def chanKey (chname : Str) : Str := chname.map toUpper

/-- Write a channel. -/
def State.setChan (s : State) (c : Str) (ch : Chan) : State := ⟨Function.update s.chan c (some ch)⟩

/-- The topic of a channel. -/
def State.topicAt (s : State) (c : Str) : Option TopicInfo := (s.chan c).bind Chan.topic

/-- `rb_strndup` of a topic. -/
def Conf.cut (conf : Conf) (topic : Str) : Str := strlcpy topic (conf.topiclen + 1)

/-- `set_channel_topic`. -/
def setChannelTopic (conf : Conf) (ch : Chan) (topic topicInfo : Str) (topicts : ℤ) : Chan :=
  if topic ≠ [] then { ch with topic := some ⟨conf.cut topic, strlcpy topicInfo userhostReplyLen,
    topicts⟩ }
  else { ch with topic := none }

/-- The name and the id of `source_p`. -/
structure Source where
  name : Str
  id : Str
  deriving DecidableEq

/-- `use_id`. -/
def Source.useId (source : Source) : Str := if source.id ≠ [] then source.id else source.name

/-- What is sent: a line to the members of the channel on this server, and one to the other servers
with `CAP_TB`, which have `CAP_TS6` or have not. -/
inductive Sent
  | members (chname line : Str)
  | servers (ts6 : Bool) (chname line : Str)
  deriving DecidableEq

/-- The line with which the members of a channel are told a topic. -/
def topicLine (source : Source) (chname topic : Str) : Str :=
  ':' :: source.name ++ " TOPIC ".toList ++ chname ++ " :".toList ++ topic

/-- The line with which a server is told a topic. -/
def tbLine (conf : Conf) (source chname : Str) (t : TopicInfo) : Str :=
  ':' :: source ++ " TB ".toList ++ chname ++ ' ' :: decimal t.topicTime ++ ' ' ::
    (if conf.burstTopicwho then t.topicInfo ++ [' '] else []) ++ ':' :: t.topic

/-- A TB message. The parameters `parv` begin with the prefix. -/
structure Message where
  source : Source
  parv : List Str
  deriving DecidableEq

namespace Message

/-- `newtopicts`. -/
def newtopicts (m : Message) : ℤ := atol (m.parv.getD 2 [])

/-- `newtopic`. -/
def newtopic (m : Message) : Str := if m.parv.length = 5 then m.parv.getD 4 [] else m.parv.getD 3 []

/-- `newtopicwho`. -/
def newtopicwho (m : Message) : Str := if m.parv.length = 5 then m.parv.getD 3 [] else m.source.name

/-- A message for a channel that is not ignored: it has a text. -/
structure Valid (c : Str) (m : Message) : Prop where
  parc : 4 ≤ m.parv.length
  channel : chanKey (m.parv.getD 1 []) = c
  newtopic : m.newtopic ≠ []

instance (c : Str) (m : Message) : Decidable (m.Valid c) :=
  decidable_of_iff (4 ≤ m.parv.length ∧ chanKey (m.parv.getD 1 []) = c ∧ m.newtopic ≠ [])
    ⟨fun ⟨h₁, h₂, h₃⟩ => ⟨h₁, h₂, h₃⟩, fun ⟨h₁, h₂, h₃⟩ => ⟨h₁, h₂, h₃⟩⟩

end Message

/-- `ms_tb`: the channels after it, and what is sent. -/
def msTb (conf : Conf) (s : State) (m : Message) : State × List Sent :=
  match s.chan (chanKey (m.parv.getD 1 [])) with
  | none => (s, [])
  | some ch =>
    if m.newtopic = [] then (s, [])
    else if ch.topic.all fun t => m.newtopicts < t.topicTime then
      -- the same topic, whose time is a few seconds out
      if ch.topic.any fun t => t.topic = m.newtopic then (s, [])
      else
        let ch := setChannelTopic conf ch m.newtopic m.newtopicwho m.newtopicts
        let told := fun (source : Str) => (ch.topic.map (tbLine conf source ch.chname)).getD []
        (s.setChan (chanKey (m.parv.getD 1 [])) ch,
          [.members ch.chname (topicLine m.source ch.chname m.newtopic),
            .servers true ch.chname (told m.source.useId), .servers false ch.chname
              (told m.source.name)])
    else (s, [])

/-- The messages of a burst in turn. -/
def receive (conf : Conf) (s : State) (ms : List Message) : State :=
  ms.foldl (fun s m => (msTb conf s m).1) s

/-! ### A topic as a value with a stamp -/

/-- The text and the author of a topic, with its time. -/
def TopicInfo.stamped (t : TopicInfo) : ℤ × Str × Str := (t.topicTime, t.topic, t.topicInfo)

/-- The text and the author that a message has, with its time. -/
def Message.stamped (m : Message) : ℤ × Str × Str := (m.newtopicts, m.newtopic, m.newtopicwho)

/-- The text that a channel has is the one of a message. -/
def sameTopic (r x : Str × Str) : Prop := r.1 = x.1

instance : DecidableRel sameTopic := fun r x => inferInstanceAs (Decidable (r.1 = x.1))

/-- What is kept of the text and the author of a message. -/
def Conf.store (conf : Conf) (x : Str × Str) : Str × Str :=
  (conf.cut x.1, strlcpy x.2 userhostReplyLen)

/-- No other message has, when it is cut, the text of a message. -/
def Unshared (conf : Conf) (ms : Multiset Message) (m : Message) : Prop :=
  ∀ m' ∈ ms, m' ≠ m → conf.cut m'.newtopic ≠ m.newtopic

section Burst

variable {conf : Conf} {s : State} {c : Str} {ch : Chan} {m m' : Message} {ms : Multiset Message}
  {order : List Message}

/-- **A message is taken over** when its time is less and its text is another one. -/
theorem topicAt_msTb (hch : s.chan c = some ch) (hm : m.Valid c) :
    (∃ ch', (msTb conf s m).1.chan c = some ch') ∧
      ((msTb conf s m).1.topicAt c).map TopicInfo.stamped = Stamp.take sameTopic conf.store
      (ch.topic.map TopicInfo.stamped) m.stamped := by
  have hset : ∀ ch', (s.setChan c ch').chan c = some ch' := fun ch' => Function.update_self ..
  have hstored : (setChannelTopic conf ch m.newtopic m.newtopicwho m.newtopicts).topic =
      some ⟨conf.cut m.newtopic, strlcpy m.newtopicwho userhostReplyLen, m.newtopicts⟩ := by
    rw [setChannelTopic, if_pos hm.newtopic]
  rw [msTb, hm.channel, hch]
  dsimp only
  rw [if_neg hm.newtopic]
  cases htopic : ch.topic with
  | none =>
    refine ⟨⟨_, hset _⟩, ?_⟩
    rw [State.topicAt, all_none, if_pos rfl, any_none, if_neg Bool.false_ne_true, hset, bind_some,
      hstored]
    rfl
  | some t =>
    rw [all_some, any_some, map_some, Stamp.take]
    by_cases htime : m.newtopicts < t.topicTime
    · rw [if_pos (by simpa using htime)]
      by_cases htext : t.topic = m.newtopic
      · rw [if_pos (by simpa using htext), if_neg fun h => h.2 htext, State.topicAt, hch, bind_some,
          htopic]
        exact ⟨⟨_, rfl⟩, rfl⟩
      · rw [if_neg (by simpa using htext), if_pos ⟨htime, htext⟩, State.topicAt, hset, bind_some,
          hstored]
        exact ⟨⟨_, rfl⟩, rfl⟩
    · rw [if_neg (by simpa using htime), if_neg fun h => htime h.1, State.topicAt, hch, bind_some,
        htopic]
      exact ⟨⟨_, rfl⟩, rfl⟩

/-- The messages of a burst are taken over in turn. -/
theorem topicAt_receive (hch : s.chan c = some ch) (hvalid : ∀ m ∈ order, m.Valid c) :
    ((receive conf s order).topicAt c).map TopicInfo.stamped =
      (order.map Message.stamped).foldl (Stamp.take sameTopic conf.store)
      (ch.topic.map TopicInfo.stamped) := by
  induction order generalizing s ch with
  | nil => rw [receive, foldl_nil, State.topicAt, hch, bind_some, map_nil, foldl_nil]
  | cons m order ih =>
    obtain ⟨⟨ch', hch'⟩, hstep⟩ := topicAt_msTb hch (hvalid m mem_cons_self)
    rw [State.topicAt, hch', bind_some] at hstep
    rw [map_cons, foldl_cons, ← hstep]
    exact ih hch' fun m' hm' => hvalid m' (mem_cons_of_mem m hm')

/-- The messages have their times only once. -/
theorem lt_of_least (hts : (ms.map Message.newtopicts).Nodup) (hm : m ∈ ms)
    (hleast : ∀ m' ∈ ms, m.newtopicts ≤ m'.newtopicts) (hm' : m' ∈ ms) (hne : m' ≠ m) :
    m.newtopicts < m'.newtopicts :=
  lt_of_le_of_ne (hleast m' hm') fun heq => hne (Multiset.inj_on_of_nodup_map hts m' hm' m hm
    heq.symm)

/-- What a channel without topic has after a burst. -/
theorem stamped_receive (hch : s.chan c = some ch) (hnone : ch.topic = none)
    (hvalid : ∀ m ∈ order, m.Valid c) : ((receive conf s order).topicAt c).map TopicInfo.stamped =
      (order.map Message.stamped).foldl (Stamp.take sameTopic conf.store) none := by
  rw [topicAt_receive hch hvalid, hnone, map_none]

/-- The oldest topic remains when no other message has its text. -/
theorem Unshared.receive (h : Unshared conf ms m) (hch : s.chan c = some ch)
    (hnone : ch.topic = none) (hvalid : ∀ m ∈ ms, m.Valid c)
    (hts : (ms.map Message.newtopicts).Nodup) (hm : m ∈ ms)
    (hleast : ∀ m' ∈ ms, m.newtopicts ≤ m'.newtopicts) (horder : (order : Multiset Message) = ms) :
    (receive conf s order).topicAt c =
      some ⟨conf.cut m.newtopic, strlcpy m.newtopicwho userhostReplyLen, m.newtopicts⟩ := by
  subst horder
  have hother : ∀ y ∈ order.map Message.stamped, y ≠ m.stamped → ∃ m' ∈ order, m' ≠ m ∧
      y = m'.stamped := by
    intro y hy hne
    obtain ⟨m', hm', rfl⟩ := mem_map.mp hy
    exact ⟨m', hm', fun heq => hne (heq ▸ rfl), rfl⟩
  have hfold : (order.map Message.stamped).foldl (Stamp.take sameTopic conf.store) none =
      some (Stamp.view conf.store m.stamped) := Stamp.foldl_take (mem_map_of_mem hm)
    (fun y hy hne => by
      obtain ⟨m', hm', hne', rfl⟩ := hother y hy hne
      exact lt_of_least hts hm hleast hm' hne')
    (fun y hy hne => by
      obtain ⟨m', hm', hne', rfl⟩ := hother y hy hne
      exact h m' hm' hne')
  rw [← stamped_receive hch hnone hvalid] at hfold
  obtain ⟨⟨topic, topicInfo, topicTime⟩, ht, heq⟩ := map_eq_some_iff.mp hfold
  obtain ⟨rfl, rfl, rfl⟩ : topicTime = m.newtopicts ∧ topic = conf.cut m.newtopic ∧
      topicInfo = strlcpy m.newtopicwho userhostReplyLen := by
    simpa [TopicInfo.stamped, Stamp.view, Message.stamped, Conf.store] using heq
  exact ht

/-- When another message has the text of the oldest one, there is an order in which the time of the
oldest is lost. -/
theorem exists_order (hch : s.chan c = some ch) (hnone : ch.topic = none)
    (hvalid : ∀ m ∈ ms, m.Valid c) (hts : (ms.map Message.newtopicts).Nodup) (hm : m ∈ ms)
    (hm' : m' ∈ ms) (hne : m' ≠ m)
    (hsame : conf.cut m'.newtopic = m.newtopic) : ∃ order : List Message,
      (order : Multiset Message) = ms ∧ ∀ t, (receive conf s order).topicAt c = some t →
      t.topicTime ≠ m.newtopicts := by
  obtain ⟨rest, rfl⟩ := Multiset.exists_cons_of_mem hm'
  obtain ⟨rest, rfl⟩ := Multiset.exists_cons_of_mem ((Multiset.mem_cons.mp hm).resolve_left
    hne.symm)
  obtain ⟨xs, rfl⟩ := Quotient.exists_rep rest
  refine ⟨m' :: m :: xs, rfl, fun t ht => ?_⟩
  have hother : ∀ v ∈ m' :: xs, v.newtopicts ≠ m.newtopicts := by
    intro v hv heq
    have hnodup : ((m :: m' :: xs).map Message.newtopicts).Nodup := by
      have hperm : ((m' :: m :: xs).map Message.newtopicts).Perm
        ((m :: m' :: xs).map Message.newtopicts) :=
        (Perm.swap m m' xs).map _
      exact hperm.nodup_iff.mp hts
    rw [map_cons, nodup_cons] at hnodup
    exact hnodup.1 (heq ▸ mem_map_of_mem hv)
  have hfold : ((receive conf s (m' :: m :: xs)).topicAt c).map TopicInfo.stamped =
      ((m' :: m :: xs).map Message.stamped).foldl (Stamp.take sameTopic conf.store) none :=
    stamped_receive hch hnone hvalid
  rw [ht, map_some, map_cons, map_cons] at hfold
  refine Stamp.foldl_take_ne (x := m.stamped) (y := m'.stamped) hsame (hother m' mem_cons_self)
    (fun v hv => ?_) hfold.symm
  obtain ⟨w, hw, rfl⟩ := mem_map.mp hv
  exact hother w (mem_cons_of_mem m' hw)

/-- **The oldest topic remains**, in every order, exactly when no other message of the burst has its
text; and only then do two servers that get the messages in different orders have the same topic. -/
theorem oldest_iff (hch : s.chan c = some ch) (hnone : ch.topic = none)
    (hvalid : ∀ m ∈ ms, m.Valid c) (hts : (ms.map Message.newtopicts).Nodup) (hm : m ∈ ms)
    (hleast : ∀ m' ∈ ms, m.newtopicts ≤ m'.newtopicts) :
    ((∀ order : List Message, (order : Multiset Message) = ms →
        ∃ t, (receive conf s order).topicAt c = some t ∧ t.topicTime = m.newtopicts ∧
        t.topic = conf.cut m.newtopic) ↔ Unshared conf ms m) ∧
      ((∀ order order' : List Message, (order : Multiset Message) = ms →
        (order' : Multiset Message) = ms →
        (receive conf s order).topicAt c = (receive conf s order').topicAt c) ↔
        Unshared conf ms m) := by
  have honly : ¬Unshared conf ms m → ∃ order : List Message, (order : Multiset Message) = ms ∧
      ∀ t, (receive conf s order).topicAt c = some t → t.topicTime ≠ m.newtopicts := by
    intro h
    simp only [Unshared, not_forall, ne_eq, not_not, exists_prop] at h
    obtain ⟨m', hm', hne, hsame⟩ := h
    exact exists_order hch hnone hvalid hts hm hm' hne hsame
  refine ⟨⟨fun h => ?_, fun h order horder => ?_⟩,
    ⟨fun h => ?_, fun h order order' horder horder' => ?_⟩⟩
  · by_contra hnot
    obtain ⟨order, horder, hlost⟩ := honly hnot
    obtain ⟨t, ht, htime, -⟩ := h order horder
    exact hlost t ht htime
  · exact ⟨_, h.receive hch hnone hvalid hts hm hleast horder, rfl, rfl⟩
  · by_contra hnot
    obtain ⟨order, horder, hlost⟩ := honly hnot
    obtain ⟨rest, rfl⟩ := Multiset.exists_cons_of_mem hm
    obtain ⟨xs, rfl⟩ := Quotient.exists_rep rest
    -- With the oldest message in front, its time remains.
    have hfirst : ((receive conf s (m :: xs)).topicAt c).map TopicInfo.stamped =
        ((m :: xs).map Message.stamped).foldl (Stamp.take sameTopic conf.store) none :=
      stamped_receive hch hnone hvalid
    rw [map_cons, foldl_cons, Stamp.take, Stamp.foldl_take_of_le] at hfirst
    · obtain ⟨t, ht, heq⟩ := map_eq_some_iff.mp hfirst
      exact hlost t ((h order (m :: xs) horder rfl).trans ht) (congrArg Prod.fst heq)
    · intro x hx
      obtain ⟨m', hm', rfl⟩ := mem_map.mp hx
      exact hleast m' (Multiset.mem_cons_of_mem hm')
  · rw [h.receive hch hnone hvalid hts hm hleast horder, h.receive hch hnone hvalid hts hm hleast
      horder']

end Burst

/-- The usual settings. -/
def usualConf : Conf := ⟨160, true, by decide, by decide⟩

/-- A channel without topic. -/
def oneChannel : State := State.setChan ⟨fun _ => none⟩ ['#', 'C'] ⟨['#', 'c'], none⟩

/-- A TB message for it. -/
def tb (newtopicts newtopic : String) : Message :=
  ⟨⟨['s'], ['1', 'S']⟩, [['s'], ['#', 'c'], newtopicts.toList, newtopic.toList]⟩

theorem oldest_iff_small :
    (∃ t, (receive usualConf oneChannel [tb "9" "a", tb "8" "b"]).topicAt ['#', 'C'] = some t ∧
      t.topicTime = 8 ∧ t.topic = ['b']) ∧
    ∃ t, (receive usualConf oneChannel [tb "8" "b", tb "9" "a"]).topicAt ['#', 'C'] = some t ∧
      t.topicTime = 8 ∧ t.topic = ['b'] := by
  have hvalid : ∀ m ∈ ({tb "9" "a", tb "8" "b"} : Multiset Message), m.Valid ['#', 'C'] := by decide
  have hunshared : Unshared usualConf {tb "9" "a", tb "8" "b"} (tb "8" "b") :=
    show ∀ m' ∈ ({tb "9" "a", tb "8" "b"} : Multiset Message), m' ≠ tb "8" "b" →
      usualConf.cut m'.newtopic ≠ (tb "8" "b").newtopic by decide
  have hevery := (oldest_iff (s := oneChannel) rfl rfl hvalid (by decide) (by decide)
    (by decide)).1.mpr hunshared
  exact ⟨hevery [tb "9" "a", tb "8" "b"] rfl, hevery [tb "8" "b", tb "9" "a"] (by decide)⟩

/-- Two messages with one text: the later one is dropped, although its time is less. With a third
one between them, the order decides which text there is in the end. -/
theorem oldest_lost : (∀ m ∈ [tb "9" "a", tb "8" "b", tb "7" "a"], m.Valid ['#', 'C']) ∧
    (receive usualConf oneChannel [tb "9" "a", tb "7" "a"]).topicAt ['#', 'C'] = some
    ⟨['a'], ['s'], 9⟩ ∧
    (receive usualConf oneChannel [tb "9" "a", tb "7" "a", tb "8" "b"]).topicAt ['#', 'C'] = some
    ⟨['b'], ['s'], 8⟩ ∧
    (receive usualConf oneChannel [tb "9" "a", tb "8" "b", tb "7" "a"]).topicAt ['#', 'C'] = some
    ⟨['a'], ['s'], 7⟩ := by
  decide

end Ratbox.Topic
