import CronSchedule.Calendar.Count
import CronSchedule.Calendar.Next
import CronSchedule.Calendar.Reading
import CronSchedule.Term.Blame
import CronSchedule.Schedule.Reading
import CronSchedule.Schedule.Description
import CronSchedule.Schedule.MinuteWalk
import CronSchedule.Schedule.Rounds
import CronSchedule.Journal.Record
import CronSchedule.CommandLine.Switch
import CronSchedule.Main
import CronSchedule.Proofs.CalendarOrder
import CronSchedule.Proofs.SlotOrder
import CronSchedule.Proofs.SearchRefinement
import CronSchedule.Proofs.EarliestTime
import CronSchedule.Proofs.Expansion
import CronSchedule.Proofs.ReadSchedule
import CronSchedule.Proofs.DayRule
import CronSchedule.Proofs.Exhaustion
import CronSchedule.Proofs.CyclicSearch
import CronSchedule.Proofs.Upcoming
import CronSchedule.Proofs.Firing
import CronSchedule.Proofs.Layout
import CronSchedule.Proofs.Relisting
import CronSchedule.Proofs.Records
import CronSchedule.Proofs.ReadBack
import CronSchedule.Proofs.CommandRuns
import CronSchedule.Proofs.Agreement
import CronSchedule.Proofs.OneMinuteLater
import CronSchedule.Proofs.Rejections
import CronSchedule.Proofs.SearchLength
import CronSchedule.Proofs.WaitingTime
import CronSchedule.Proofs.Appending
import CronSchedule.Proofs.Spelling
import CronSchedule.Proofs.Sundays
import CronSchedule.Proofs.TokenValues
import CronSchedule.Proofs.CommaLists
import CronSchedule.Proofs.BlamedTexts
import CronSchedule.Proofs.SwitchReading
import CronSchedule.Proofs.DebugRuns
import CronSchedule.Proofs.SlotCounting
import CronSchedule.Proofs.SlotTimes
import CronSchedule.Proofs.FiniteSets
import CronSchedule.Proofs.SearchLoop
import CronSchedule.Proofs.Progressions
